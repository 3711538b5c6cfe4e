import TraversalSql.Proofs.SchemaChecks
import TraversalSql.Proofs.Scoping
import TraversalSql.Proofs.Semantics

/-!
Stored tables and the names of common table expressions.  A table that is referred to without a
schema is hidden by a common table expression of the same name.  The names of a statement are those
that the supply counts off, so this happens exactly to tables that are called like a name that was
counted off for a common table expression, and to none where no table is called that way.

A hidden table is a reference that changes when the statement is printed and read again: as a text,
it refers to the common table expression.  A statement without hidden tables is read as it is.
-/

namespace TraversalSql

open Outcome

namespace Sql

/-- The name of a stored table that is referred to without a schema. -/
def TableRef.unqualified? : TableRef → Option String
  | .table none name _ => some name
  | .table (some _) _ _ | .cte _ _ => none

/-- The names of the stored tables that a statement refers to without a schema. -/
def Statement.unqualifiedTables (statement : Statement) : List String :=
  statement.selects.flatMap fun select => select.source.tables.filterMap TableRef.unqualified?

/-- A reference as it is read from its text, where common table expressions have given names. -/
def TableRef.asPrinted (names : List String) : TableRef → TableRef
  | .table none name aliasName =>
      if name ∈ names then .cte name (some aliasName) else .table none name aliasName
  | .table (some schema) name aliasName => .table (some schema) name aliasName
  | .cte name aliasName => .cte name aliasName

def Join.asPrinted (names : List String) (join : Join) : Join :=
  { join with table := join.table.asPrinted names }

def Select.asPrinted (names : List String) (select : Select) : Select :=
  { select with source :=
      ⟨select.source.base.asPrinted names, select.source.joins.map (Join.asPrinted names)⟩ }

def CteContent.asPrinted (names : List String) : CteContent → CteContent
  | .select query => .select (query.asPrinted names)
  | .recursive anchor step combinator =>
      .recursive (anchor.asPrinted names) (step.asPrinted names) combinator

/-- The statement that the text of a statement is read as.  All its common table expressions have
their names in scope, as they have after `WITH RECURSIVE`. -/
def Statement.asPrinted (statement : Statement) : Statement :=
  let names := statement.ctes.map Cte.name
  { statement with
    ctes := statement.ctes.map fun cte => { cte with content := cte.content.asPrinted names }
    body := statement.body.asPrinted names }

section AsPrinted

variable {names : List String}

theorem TableRef.asPrinted_eq_self {table : TableRef}
    (h : ∀ name ∈ table.unqualified?, name ∉ names) : table.asPrinted names = table := by
  cases table with
  | table schema name aliasName =>
      cases schema with
      | none => exact if_neg (h name rfl)
      | some schema => rfl
  | cte name aliasName => rfl

theorem Select.asPrinted_eq_self {select : Select}
    (h : ∀ name ∈ select.source.tables.filterMap TableRef.unqualified?, name ∉ names) :
    select.asPrinted names = select := by
  have htable : ∀ table ∈ select.source.tables, table.asPrinted names = table :=
    fun table htable => TableRef.asPrinted_eq_self fun name hname =>
      h name (List.mem_filterMap.2 ⟨table, htable, hname⟩)
  have hbase := htable select.source.base List.mem_cons_self
  have hjoins : select.source.joins.map (Join.asPrinted names) = select.source.joins := by
    have hjoin : ∀ join ∈ select.source.joins, join.asPrinted names = id join := by
      intro join hjoin
      rw [Join.asPrinted, htable join.table (List.mem_cons_of_mem _ (List.mem_map_of_mem hjoin))]
      rfl
    rw [List.map_congr_left hjoin, List.map_id]
  rw [asPrinted, hbase, hjoins]

theorem CteContent.asPrinted_eq_self {cte : Cte}
    (h : ∀ select ∈ cte.selects, select.asPrinted names = select) :
    cte.content.asPrinted names = cte.content := by
  obtain ⟨name, content, isRecursive⟩ := cte
  cases content with
  | select query => exact congrArg CteContent.select (h query List.mem_cons_self)
  | recursive anchor step combinator =>
      rw [asPrinted, h anchor List.mem_cons_self, h step (List.mem_cons_of_mem _ List.mem_cons_self)]

/-- A statement in which no stored table is hidden is read from its text as it is. -/
theorem Statement.asPrinted_eq_self {statement : Statement}
    (h : ∀ name ∈ statement.unqualifiedTables, name ∉ statement.ctes.map Cte.name) :
    statement.asPrinted = statement := by
  have hselects : ∀ select ∈ statement.selects,
      select.asPrinted (statement.ctes.map Cte.name) = select :=
    fun select hselect => Select.asPrinted_eq_self fun name hname =>
      h name (List.mem_flatMap.2 ⟨select, hselect, hname⟩)
  have hctes : statement.ctes.map (fun cte =>
      { cte with content := cte.content.asPrinted (statement.ctes.map Cte.name) }) =
        statement.ctes := by
    have hcte : ∀ cte ∈ statement.ctes,
        { cte with content := cte.content.asPrinted (statement.ctes.map Cte.name) } = id cte := by
      intro cte hcte
      rw [CteContent.asPrinted_eq_self fun select hselect =>
        hselects select (List.mem_append_left _ (List.mem_flatMap.2 ⟨cte, hcte, hselect⟩))]
      rfl
    rw [List.map_congr_left hcte, List.map_id]
  have hbody := hselects statement.body (List.mem_append_right _ (List.mem_singleton.2 rfl))
  dsimp only [asPrinted]
  rw [hctes, hbody]

end AsPrinted

def Statement.storedAliases (statement : Statement) : List String :=
  statement.selects.flatMap fun select => select.source.storedAliases

def TableRef.OfSchema (schema : Schema) : TableRef → Prop
  | .table qualifier name _ =>
      ∃ key table, schema.table? key = some table ∧ table.qualifier = qualifier ∧ table.name = name
  | .cte _ _ => True

end Sql

/-- A name that is counted off for a common table expression. -/
def CountedOff (name : String) : Prop :=
  ∃ kind : Sql.CteKind, ∃ number, 0 < number ∧ name = Sql.numbered kind.base number

theorem countedOff_nextCte (supply : Sql.AliasSupply) (kind : Sql.CteKind) :
    CountedOff (supply.nextCte kind).1 :=
  ⟨kind, _, Nat.succ_pos _, rfl⟩

theorem ofSchema_reference {schema : Schema} {typeName : String} {table : Table}
    (h : schema.tableOf typeName = .ok table) (aliasName : String) :
    (table.reference aliasName).OfSchema schema :=
  ⟨_, table, Schema.table?_of_tableOf h, rfl, rfl⟩

/-- The joins of a path are joins with tables of the schema. -/
theorem JoinPath.ofSchema {schema : Schema} {outer inner : BoundVertex} {traversal : Traversal}
    {hops : List JoinHop} {supply later : Sql.AliasSupply}
    (h : JoinPath schema outer inner traversal supply hops later) :
    ∀ hop ∈ hops, hop.table.OfSchema schema := by
  cases h with
  | direct _ htable =>
      rw [List.forall_mem_singleton]
      exact ofSchema_reference htable _
  | junction _ hjunction htable =>
      rw [List.forall_mem_cons, List.forall_mem_singleton]
      exact ⟨⟨_, _, hjunction, rfl, rfl⟩, ofSchema_reference htable _⟩

theorem Members.MadeBy.ofSchema {members : Members} {target : Target} {scopeRoot : Node}
    {tops : List Member} {bindings : List Binding} {supply later : Sql.AliasSupply}
    (h : members.MadeBy target scopeRoot tops bindings supply later) :
    ∀ join ∈ members.joins, join.table.OfSchema target.schema := by
  rw [h.joins]
  intro join hjoin
  obtain ⟨binding, hbinding, hjoin⟩ := List.mem_flatMap.1 hjoin
  obtain ⟨hop, hhop, rfl⟩ := List.mem_map.1 hjoin
  obtain ⟨_, _, _, _, -, -, -, hpath⟩ := h.made.made_of_mem hbinding
  exact hpath.ofSchema hop hhop

/-- A common table expression with a name that is counted off, whose selects read stored tables of
the schema. -/
structure Sql.Cte.Sourced (schema : Schema) (cte : Sql.Cte) : Prop where
  name : CountedOff cte.name
  tables : ∀ select ∈ cte.selects, ∀ table ∈ select.source.tables, table.OfSchema schema

/-- An emission that reads stored tables of the schema. -/
structure ScopeEmission.Sourced (schema : Schema) (emission : ScopeEmission) : Prop where
  ctes : ∀ cte ∈ emission.ctes, cte.Sourced schema
  query : ∀ table ∈ emission.query.source.tables, table.OfSchema schema

theorem FoldMade.sourced {target : Target} {owner : Member} {fold : Group} {query : FoldQuery}
    {supply later : Sql.AliasSupply} (h : FoldMade target owner fold query supply later) :
    query.cte.Sourced target.schema := by
  obtain ⟨traversal, table, first, rest, members, filters, outputs, joined, bound, -, -, hpath,
    hmembers, -, -, rfl, -⟩ := h
  obtain ⟨bindings, hbindings, -⟩ := exists_bindings_of_bindGroup _ hmembers
  refine ⟨countedOff_nextCte bound .fold, fun select hselect table htable => ?_⟩
  obtain rfl := List.mem_singleton.1 hselect
  rw [tables_fold, List.mem_append] at htable
  rcases htable with htable | htable
  · obtain ⟨hop, hhop, rfl⟩ := List.mem_map.1 htable
    exact hpath.ofSchema hop hhop
  · obtain ⟨join, hjoin, rfl⟩ := List.mem_map.1 htable
    exact hbindings.ofSchema join hjoin

theorem BaseMade.sourced {target : Target} {entry : Option RecursionEntry} {group : Group}
    {folds : List Group} {members : Members} {emission : ScopeEmission}
    {supply later : Sql.AliasSupply}
    (h : BaseMade target entry group folds members emission supply later) :
    emission.Sourced target.schema := by
  obtain ⟨table, start, outputs, folded, filters, bound, htable, hstart, hmembers, -, hfolded, -,
    rfl⟩ := h
  obtain ⟨bindings, hbindings, -⟩ := exists_bindings_of_bindGroup _ hmembers
  have hfolds : ∀ query ∈ folded, ∃ owner fold supply later,
      FoldMade target owner fold query supply later := by
    intro query hquery
    obtain ⟨fold, -, supply, later, owner, -, hmade⟩ := hfolded.exists_of_mem hquery
    exact ⟨owner, fold, supply, later, hmade⟩
  constructor
  · intro cte hcte
    obtain ⟨query, hquery, rfl⟩ := List.mem_map.1 hcte
    obtain ⟨_, _, _, _, hmade⟩ := hfolds query hquery
    exact hmade.sourced
  · intro found hfound
    rw [tables_baseEmission, tables_of_scopeSource hstart] at hfound
    simp only [List.mem_append, List.mem_map, List.mem_singleton] at hfound
    rcases hfound with ((⟨e, -, rfl⟩ | rfl) | ⟨join, hjoin, rfl⟩) | ⟨query, hquery, rfl⟩
    · exact trivial
    · exact ofSchema_reference htable _
    · exact hbindings.ofSchema join hjoin
    · obtain ⟨_, _, _, _, hmade⟩ := hfolds query hquery
      rw [hmade.join_table]
      exact trivial

theorem Recursion.StepMade.ofSchema {recursion : Recursion} {target : Target} {step : Sql.Select}
    {supply later : Sql.AliasSupply} (h : recursion.StepMade target step supply later) :
    ∀ table ∈ step.source.tables, table.OfSchema target.schema := by
  cases h with
  | @fromKey table key joined _ _ htable hkey hpath =>
      have hhops := hpath.ofSchema
      refine List.forall_mem_cons.2 ⟨trivial, fun found hfound => ?_⟩
      obtain ⟨join, hjoin, rfl⟩ := List.mem_map.1 hfound
      cases joined with
      | nil => exact absurd hjoin List.not_mem_nil
      | cons first rest =>
          rw [List.forall_mem_cons] at hhops
          rcases List.mem_cons.1 hjoin with rfl | hjoin
          · exact hhops.1
          · obtain ⟨hop, hhop, rfl⟩ := List.mem_map.1 hjoin
            exact hhops.2 hop hhop
  | @fromRow table key joined _ _ _ current htable hkey _ hpath =>
      refine List.forall_mem_cons.2 ⟨trivial, List.forall_mem_cons.2
        ⟨ofSchema_reference htable current, fun found hfound => ?_⟩⟩
      rw [List.map_map] at hfound
      obtain ⟨hop, hhop, rfl⟩ := List.mem_map.1 hfound
      exact hpath.ofSchema hop hhop

theorem TableMade.sourced {target : Target} {scopeCte link : String} {recursion : Node}
    {table : Sql.Cte} {entry : RecursionEntry} {supply later : Sql.AliasSupply}
    (h : TableMade target scopeCte link recursion table entry supply later) :
    table.Sourced target.schema := by
  obtain ⟨walk, step, combinator, hwalk, hstep, -, rfl, -⟩ := h
  refine ⟨?_, fun select hselect => ?_⟩
  · rw [(Recursion.name_of_ofRelation hwalk).1]
    exact countedOff_nextCte supply .recursion
  · rcases List.mem_pair.1 hselect with rfl | rfl
    · exact List.forall_mem_singleton.2 trivial
    · exact hstep.ofSchema

/-- A scope whose select is given a name that is counted off. -/
theorem ScopeEmission.Sourced.ofSelect {schema : Schema} {emission : ScopeEmission}
    (h : emission.Sourced schema) (supply : Sql.AliasSupply) (columns : List ScopeColumn) :
    (Sql.Cte.ofSelect (supply.nextCte .scope).1
      ({ emission.query with columns } : ScopeQuery).select).Sourced schema := by
  refine ⟨countedOff_nextCte supply .scope, fun select hselect => ?_⟩
  obtain rfl := List.mem_singleton.1 hselect
  exact h.query

theorem AttachedMade.sourced {target : Target} {scopeRoot : Node} {scopeCte : String}
    {source : Scope × String} {attached : AttachedRecursion} {supply later : Sql.AliasSupply}
    (h : AttachedMade target (fun _ _ emission _ _ => emission.Sourced target.schema) scopeRoot
      scopeCte source attached supply later) :
    (∀ cte ∈ attached.ctes, cte.Sourced target.schema) ∧
      attached.join.table.OfSchema target.schema := by
  obtain ⟨table, entry, emission, walked, bound, htable, hscope, rfl, -⟩ := h
  refine ⟨fun cte hcte => ?_, trivial⟩
  rcases mem_ctes_attach_iff.1 hcte with rfl | hcte | rfl
  · exact htable.sourced
  · exact hscope.ctes cte hcte
  · exact hscope.ofSelect bound _

/-- Every emitted scope reads stored tables of the schema, and counts off the names of its common
table expressions. -/
theorem sourced_of_emitScope {target : Target} {scope : Scope} {entry : Option RecursionEntry}
    {emission : ScopeEmission} {supply later : Sql.AliasSupply}
    (h : emitScope target scope entry supply = .ok (emission, later)) :
    emission.Sourced target.schema := by
  refine emitScope_induction
    (motive := fun _ _ emission _ _ => emission.Sourced target.schema) ?plain ?wrapped scope h
  case plain =>
    intro group folds entry members base supply later hbase
    exact hbase.sourced
  case wrapped =>
    intro group folds recursions entry members base links attached supply based linked later _
      hbase _ hattached
    have hmade : ∀ recursion ∈ attached, (∀ cte ∈ recursion.ctes, cte.Sourced target.schema) ∧
        recursion.join.table.OfSchema target.schema := by
      intro recursion hrecursion
      obtain ⟨source, -, _, _, hmade⟩ := hattached.exists_of_mem hrecursion
      exact hmade.sourced
    constructor
    · intro cte hcte
      rcases mem_ctes_wrappedEmission_iff.1 hcte with hcte | rfl | ⟨recursion, hrecursion, hcte⟩
      · exact hbase.sourced.ctes cte hcte
      · exact hbase.sourced.ofSelect linked _
      · exact (hmade recursion hrecursion).1 cte hcte
    · refine List.forall_mem_cons.2 ⟨trivial, fun table htable => ?_⟩
      rw [wrappedEmission, List.map_map] at htable
      obtain ⟨recursion, hrecursion, rfl⟩ := List.mem_map.1 htable
      exact (hmade recursion hrecursion).2

namespace QueryTree

variable {tree : QueryTree} {target : Target} {statement : Sql.Statement}

/-- The names of a statement are those that the supply counts off, each base from one on. -/
theorem exists_mem_names_iff (h : tree.statement target = .ok statement) :
    ∃ drawn : String → Nat, ∀ name,
      name ∈ statement.ctes.map Sql.Cte.name ++ statement.storedAliases ↔
        ∃ base number, name = Sql.numbered base number ∧ 0 < number ∧ number ≤ drawn base := by
  obtain ⟨emission, hemission, hctes, hbody⟩ := exists_of_statement_eq_ok h
  obtain ⟨root, made, later, -, hmade, -, rfl⟩ := exists_of_emission_eq_ok hemission
  have hdraws := (named_of_emitScope hmade (by simp)).takes
  refine ⟨later.taken, fun name => ?_⟩
  rw [Sql.Statement.storedAliases, statement.names_perm.mem_iff, hctes, hbody]
  exact ⟨hdraws.issued name, hdraws.complete name⟩

/-- The names of the common table expressions of a statement are counted off, and its stored tables
are those of the schema. -/
theorem sourced_of_statement (h : tree.statement target = .ok statement) :
    (∀ cte ∈ statement.ctes, CountedOff cte.name) ∧
      ∀ select ∈ statement.selects, ∀ table ∈ select.source.tables,
        table.OfSchema target.schema := by
  obtain ⟨emission, hemission, hctes, hbody⟩ := exists_of_statement_eq_ok h
  obtain ⟨root, made, later, -, hmade, -, rfl⟩ := exists_of_emission_eq_ok hemission
  have hsourced := sourced_of_emitScope hmade
  refine ⟨fun cte hcte => (hsourced.ctes cte (hctes ▸ hcte)).name, fun select hselect => ?_⟩
  rw [Sql.Statement.selects, hctes, hbody] at hselect
  rcases List.mem_append.1 hselect with hselect | hselect
  · obtain ⟨cte, hcte, hselect⟩ := List.mem_flatMap.1 hselect
    exact (hsourced.ctes cte hcte).tables select hselect
  · obtain rfl := List.mem_singleton.1 hselect
    exact hsourced.query

/-- Where no table of the schema is called like a name that is counted off, none is hidden. -/
theorem not_hidden_of_statement (h : tree.statement target = .ok statement)
    (hschema : ∀ key table, target.schema.table? key = some table → table.qualifier = none →
      ¬ CountedOff table.name) :
    ∀ name ∈ statement.unqualifiedTables, name ∉ statement.ctes.map Sql.Cte.name := by
  obtain ⟨hcounted, htables⟩ := sourced_of_statement h
  intro name hname hhidden
  obtain ⟨cte, hcte, rfl⟩ := List.mem_map.1 hhidden
  obtain ⟨select, hselect, hname⟩ := List.mem_flatMap.1 hname
  obtain ⟨reference, hreference, hname⟩ := List.mem_filterMap.1 hname
  have hof := htables select hselect reference hreference
  cases reference with
  | table qualifier name aliasName =>
      cases qualifier with
      | none =>
          obtain ⟨key, table, htable, hqualifier, rfl⟩ := hof
          obtain hsame : table.name = cte.name := Option.some.inj hname
          exact hschema key table htable hqualifier (hsame ▸ hcounted cte hcte)
      | some qualifier => exact absurd hname (Option.some_ne_none _).symm
  | cte name aliasName => exact absurd hname (Option.some_ne_none _).symm

end QueryTree

namespace Query

variable {query : Query} {target : Target} {statement : Sql.Statement}

theorem not_countedOff_of_not_mem {name : String} (h : '_' ∉ name.toList) : ¬ CountedOff name := by
  rintro ⟨kind, number, -, rfl⟩
  exact h (by simp [Sql.numbered, String.toList_append])

/-- The text of a compiled statement denotes what the statement denotes, where no table of the
schema is called like a name that is counted off. -/
theorem denotes_asPrinted_iff {D : Type} [DecidableEq D] (h : query.compile target = .ok statement)
    (hschema : ∀ key table, target.schema.table? key = some table → table.qualifier = none →
      ¬ CountedOff table.name)
    (session : Sql.Session D) (stored : Sql.Stored D) (tuples : List (List (Option D))) :
    statement.asPrinted.Denotes session stored tuples ↔
      statement.Denotes session stored tuples := by
  obtain ⟨tree, -, hstatement⟩ := QueryTree.exists_of_compile h
  rw [Sql.Statement.asPrinted_eq_self (QueryTree.not_hidden_of_statement hstatement hschema)]

/-- Which stored tables are hidden by common table expressions.  A statement takes its names from
counters, one for each base.  A table that it refers to without a schema has the name of a common
table expression exactly if it is called like one that was counted off for a scope, a recursion or a
fold and that no alias has; so none has such a name if no table of the schema is called that way. -/
theorem captured_iff_counted (h : query.compile target = .ok statement) :
    ∃ drawn : String → Nat,
      (∀ name, name ∈ statement.ctes.map Sql.Cte.name ++ statement.storedAliases ↔
        ∃ base number, name = Sql.numbered base number ∧ 0 < number ∧ number ≤ drawn base) ∧
      (∀ name ∈ statement.unqualifiedTables,
        (name ∈ statement.ctes.map Sql.Cte.name ↔ name ∉ statement.storedAliases ∧
          ∃ kind : Sql.CteKind, ∃ number, name = Sql.numbered kind.base number ∧ 0 < number ∧
            number ≤ drawn kind.base)) ∧
      ((∀ key table, target.schema.table? key = some table → table.qualifier = none →
          ¬ CountedOff table.name) →
        ∀ name ∈ statement.unqualifiedTables, name ∉ statement.ctes.map Sql.Cte.name) := by
  obtain ⟨tree, -, hstatement⟩ := QueryTree.exists_of_compile h
  obtain ⟨drawn, hdrawn⟩ := QueryTree.exists_mem_names_iff hstatement
  obtain ⟨hcounted, -⟩ := QueryTree.sourced_of_statement hstatement
  obtain ⟨-, -, hnames, -⟩ := QueryTree.inOrder_of_statement hstatement
  have hdisjoint := (List.nodup_append'.1 hnames).2.2
  refine ⟨drawn, hdrawn, fun name _ => ⟨fun hname => ?_, ?_⟩,
    QueryTree.not_hidden_of_statement hstatement⟩
  · obtain ⟨cte, hcte, rfl⟩ := List.mem_map.1 hname
    obtain ⟨kind, number, hpositive, hsame⟩ := hcounted cte hcte
    obtain ⟨base, other, hother, -, hle⟩ := (hdrawn cte.name).1 (List.mem_append_left _ hname)
    obtain ⟨rfl, rfl⟩ := Sql.numbered_inj.1 (hsame.symm.trans hother)
    exact ⟨hdisjoint hname, kind, number, hsame, hpositive, hle⟩
  · rintro ⟨halias, kind, number, hsame, hpositive, hle⟩
    have hmem := (hdrawn name).2 ⟨kind.base, number, hsame, hpositive, hle⟩
    exact (List.mem_append.1 hmem).resolve_right halias

theorem captured_iff_counted_pedigree :
    ∃ statement, (ofPattern pedigree).compile farm = .ok statement ∧
      "animal" ∈ statement.unqualifiedTables ∧
      statement.ctes.map Sql.Cte.name = ["fold_1", "scope_1", "recursion_1", "scope_2"] ∧
      ∀ name ∈ statement.unqualifiedTables, name ∉ statement.ctes.map Sql.Cte.name := by
  have hnames : ((ofPattern pedigree).compile farm).map (fun statement =>
      (statement.unqualifiedTables.head?, statement.ctes.map Sql.Cte.name)) =
      .ok (some "animal", ["fold_1", "scope_1", "recursion_1", "scope_2"]) := by cbv
  obtain ⟨statement, hstatement, hsame⟩ := map_eq_ok_iff.1 hnames
  obtain ⟨hfirst, hctes⟩ := Prod.mk.inj hsame
  refine ⟨statement, hstatement, List.mem_of_mem_head? hfirst, hctes, ?_⟩
  obtain ⟨-, -, -, hnone⟩ := captured_iff_counted hstatement
  have hplain : ∀ table ∈ farm.schema.tables.values, '_' ∉ table.name.toList := by decide
  exact hnone fun key table htable _ =>
    not_countedOff_of_not_mem (hplain table (OrderedMap.mem_values_of_find? htable))

/-- A query for whatever contains an item. -/
def nesting : Pattern where
  startClass := "Item"
  vertex := ⟨"Item", [], [⟨"name", "item"⟩]⟩
  branches :=
    .branch ⟨⟨"part", .inward⟩, .recurse 2⟩ ⟨"Item", [], [⟨"name", "whole"⟩]⟩ .none .none

/-- Items that are kept in a table that is called like a scope. -/
def store : Target where
  dialect := .postgresql
  schema := {
    tables := .ofList [("scope_1", ⟨"scope_1", none, ["id", "name", "whole_id"], ["id"], []⟩)]
    vertexTypes := .ofList [("Item", ⟨some "scope_1", .empty,
      .ofList [("part", ⟨"Item", .direct ⟨"id", "whole_id", none⟩⟩)]⟩)] }
  maxRecursionDepth := 10
  combinator := none

/-- The table is hidden by the common table expression of the scope that reads it. -/
theorem captured_scope :
    ∃ statement, (ofPattern nesting).compile store = .ok statement ∧
      "scope_1" ∈ statement.unqualifiedTables ∧ "scope_1" ∈ statement.ctes.map Sql.Cte.name := by
  have hnames : ((ofPattern nesting).compile store).map (fun statement =>
      (statement.unqualifiedTables, statement.ctes.map Sql.Cte.name)) =
      .ok (["scope_1", "scope_1", "scope_1", "scope_1"],
        ["scope_1", "recursion_1", "scope_2"]) := by
    cbv
  obtain ⟨statement, hstatement, hsame⟩ := map_eq_ok_iff.1 hnames
  obtain ⟨htables, hctes⟩ := Prod.mk.inj hsame
  exact ⟨statement, hstatement, by simp [htables], by simp [hctes]⟩

end Query

end TraversalSql
