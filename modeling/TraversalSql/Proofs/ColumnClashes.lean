import TraversalSql.Proofs.Scoping

/-!
Columns of one select that have the same name.  The outputs of a query are named by the query, the
columns that link scopes are counted off, and nothing keeps the two apart.  So the names of a select
clash exactly if an output is called like one of its links; where no output is called like a link
that is counted off, each column that is read from a common table expression is a single one.
-/

namespace TraversalSql

open Outcome

namespace Sql

/-- The columns of a select are links, which have names of their own or are those of a recursive
table, and outputs under some of the given names. -/
structure Select.Splits (select : Select) (names links outputs : List String) : Prop where
  items : (select.items.map SelectItem.aliasName).Perm ((links ++ outputs).map some)
  distinct : links.Nodup
  links : ∀ link ∈ links, LinkName link ∨ link ∈ Recursion.tableColumns
  outputs : outputs.Subperm names

/-- No select of a statement has two columns of one name, and whatever is read from a common table
expression by its name is a single column of each of its selects. -/
structure Statement.Unambiguous (statement : Statement) : Prop where
  distinct : ∀ select ∈ statement.selects, (select.items.map SelectItem.aliasName).Nodup
  single : ∀ select ∈ statement.selects, ∀ e ∈ select.expressions, ∀ column ∈ e.columns,
    ∀ cte ∈ statement.ctes, cte.name = column.1 →
      ∀ source ∈ cte.selects, (source.items.map SelectItem.aliasName).count (some column.2) = 1

/-- Where no select has two columns of one name, a column that is read by its name is a single one,
as common table expressions project what is read from them. -/
theorem Statement.unambiguous_of_nodup {statement : Statement} (hordered : statement.Ordered)
    (hscoped : ∀ select ∈ statement.selects, select.ScopedIn statement.ctes)
    (hdistinct : ∀ select ∈ statement.selects, (select.items.map SelectItem.aliasName).Nodup) :
    statement.Unambiguous := by
  refine ⟨hdistinct, fun select hselect e he column hcolumn cte hcte hname source hsource => ?_⟩
  obtain ⟨table, htable, halias, hoffers⟩ := (hscoped select hselect).readsFrom e he column hcolumn
  obtain rfl := hordered.unshadowed cte hcte select hselect table htable (halias.trans hname.symm)
  obtain ⟨found, hfound, hsame, hprojects⟩ := hoffers
  obtain rfl := List.inj_on_of_nodup_map hordered.distinct hfound hcte hsame
  apply List.count_eq_one_of_mem _ (hprojects source hsource)
  exact hdistinct source (List.mem_append_left _ (List.mem_flatMap.2 ⟨found, hcte, hsource⟩))

/-- Recursive tables have the columns of such tables in their anchors and steps. -/
def TablesNamed (ctes : List Cte) : Prop :=
  ∀ cte ∈ ctes, cte.plain? = none → ∀ select ∈ cte.selects,
    select.items.map SelectItem.aliasName = Recursion.tableColumns.map some

theorem tablesNamed_append_iff {ctes others : List Cte} :
    TablesNamed (ctes ++ others) ↔ TablesNamed ctes ∧ TablesNamed others :=
  List.forall_mem_append

theorem tablesNamed_of_plain {ctes : List Cte} (h : ∀ cte ∈ ctes, cte.plain?.isSome) :
    TablesNamed ctes := by
  intro cte hcte hnone
  have hsome := h cte hcte
  rw [hnone] at hsome
  exact absurd hsome Bool.false_ne_true

theorem tablesNamed_ofSelect (name : String) (select : Select) :
    TablesNamed [.ofSelect name select] :=
  tablesNamed_of_plain (List.forall_mem_singleton.2 rfl)

end Sql

theorem TableMade.tablesNamed {target : Target} {scopeCte link : String} {recursion : Node}
    {table : Sql.Cte} {entry : RecursionEntry} {supply later : Sql.AliasSupply}
    (h : TableMade target scopeCte link recursion table entry supply later) :
    Sql.TablesNamed [table] := by
  obtain ⟨walk, step, combinator, -, hstep, -, rfl, -⟩ := h
  obtain ⟨joins, next, key, rfl, -, -, -⟩ := hstep.exists_joins
  refine List.forall_mem_singleton.2 fun _ select hselect => ?_
  rcases List.mem_pair.1 hselect with rfl | rfl
  · rfl
  · rfl

theorem AttachedMade.tablesNamed {target : Target} {scopeRoot : Node} {scopeCte : String}
    {source : Scope × String} {attached : AttachedRecursion} {supply later : Sql.AliasSupply}
    (h : AttachedMade target (fun _ _ emission _ _ => Sql.TablesNamed emission.ctes) scopeRoot
      scopeCte source attached supply later) : Sql.TablesNamed attached.ctes := by
  obtain ⟨table, entry, emission, walked, bound, htable, hscope, rfl, -⟩ := h
  have hwalked : Sql.TablesNamed (table :: emission.ctes) :=
    Sql.tablesNamed_append_iff.2 ⟨htable.tablesNamed, hscope⟩
  exact Sql.tablesNamed_append_iff.2 ⟨hwalked, Sql.tablesNamed_ofSelect _ _⟩

/-- The recursive tables of every emitted scope have the columns of such tables. -/
theorem tablesNamed_of_emitScope {target : Target} {scope : Scope} {entry : Option RecursionEntry}
    {emission : ScopeEmission} {supply later : Sql.AliasSupply}
    (h : emitScope target scope entry supply = .ok (emission, later)) :
    Sql.TablesNamed emission.ctes := by
  have hplain : ∀ {entry : Option RecursionEntry} {group : Group} {folds : List Group}
      {members : Members} {base : ScopeEmission} {supply later : Sql.AliasSupply},
      BaseMade target entry group folds members base supply later →
        Sql.TablesNamed base.ctes := by
    rintro _ _ _ _ _ _ _ ⟨table, start, outputs, folded, filters, bound, -, -, -, -, hfolded, -,
      rfl⟩
    refine Sql.tablesNamed_of_plain (List.forall_mem_map.2 fun query hquery => ?_)
    obtain ⟨fold, -, _, _, owner, -, hmade⟩ := hfolded.exists_of_mem hquery
    obtain ⟨-, select, hselect, -⟩ := hmade.exposes
    exact Option.isSome_of_eq_some hselect
  refine emitScope_induction
    (motive := fun _ _ emission _ _ => Sql.TablesNamed emission.ctes) ?plain ?wrapped scope h
  case plain =>
    intro group folds entry members base supply later hbase
    exact hplain hbase
  case wrapped =>
    intro group folds recursions entry members base links attached supply based linked later _
      hbase _ hattached
    refine Sql.tablesNamed_append_iff.2 ⟨Sql.tablesNamed_append_iff.2
      ⟨hplain hbase, Sql.tablesNamed_ofSelect _ _⟩, fun cte hcte => ?_⟩
    obtain ⟨recursion, hrecursion, hcte⟩ := List.mem_flatMap.1 hcte
    obtain ⟨source, -, _, _, hmade⟩ := hattached.exists_of_mem hrecursion
    exact hmade.tablesNamed cte hcte

namespace Query

variable {query : Query} {target : Target} {statement : Sql.Statement}

/-- The columns of each select of a statement are links and outputs of the query.  Only a select
without outputs, as those of recursive tables are, has links that are not counted off. -/
theorem exists_splits (h : query.compile target = .ok statement) :
    ∀ select ∈ statement.selects, ∃ links outputs,
      select.Splits (query.outputs.map Prod.fst) links outputs ∧
        (outputs = [] ∨ ∀ link ∈ links, Sql.LinkName link) := by
  obtain ⟨read, tree, emission, hblocks, hofBlocks, -, hemission, -, hctes, hbody⟩ :=
    exists_of_compile_eq_ok h
  obtain ⟨hassemblable, rfl⟩ := ofBlocks_eq_ok_iff.1 hofBlocks
  have hprovides := QueryTree.forall₂_provides hassemblable (first_kind_of_blocks hblocks) hemission
  rw [(reading_of_blocks hblocks).outputs_eq] at hprovides
  have hnames : emission.query.columns.map ScopeColumn.aliasName = query.outputs.map Prod.fst := by
    rw [← List.forall₂_eq_eq_eq, List.forall₂_map_left_iff, List.forall₂_map_right_iff]
    exact (hprovides.imp fun _ _ hprovides => hprovides.1).flip
  obtain ⟨root, made, later, -, hmade, -, rfl⟩ := QueryTree.exists_of_emission_eq_ok hemission
  have hperm : (outputNames made.query.columns).Perm (query.outputs.map Prod.fst) := by
    rw [← hnames]
    exact (List.mergeSort_perm _ _).symm.map _
  have hexposes := (exposes_of_emitScope hmade).2 (by simp)
  have htables := tablesNamed_of_emitScope hmade
  intro select hselect
  rw [Sql.Statement.selects, hctes, hbody] at hselect
  rcases List.mem_append.1 hselect with hselect | hselect
  · obtain ⟨cte, hcte, hselect⟩ := List.mem_flatMap.1 hselect
    cases hplain : cte.plain? with
    | none =>
        refine ⟨Recursion.tableColumns, [], ⟨?_, by decide, fun _ hlink => .inr hlink,
          List.nil_subperm⟩, .inl rfl⟩
        rw [htables cte hcte hplain select hselect, List.append_nil]
    | some plain =>
        rw [Sql.Cte.selects_of_plain? hplain, List.mem_singleton] at hselect
        obtain rfl := hselect
        obtain ⟨links, outputs, hitems, hdistinct, hlinks, houtputs⟩ :=
          hexposes.selects select (List.mem_filterMap.2 ⟨cte, hcte, hplain⟩)
        exact ⟨links, outputs, ⟨hitems, hdistinct, fun link hlink => .inl (hlinks link hlink),
          houtputs.trans hperm.subperm⟩, .inr hlinks⟩
  · obtain rfl := List.mem_singleton.1 hselect
    refine ⟨[], query.outputs.map Prod.fst, ⟨?_, List.nodup_nil,
      fun link hlink => absurd hlink List.not_mem_nil, List.Subperm.refl _⟩,
      .inr fun link hlink => absurd hlink List.not_mem_nil⟩
    rw [List.nil_append, ← hnames, ScopeQuery.select, List.map_map, List.map_map]
    exact List.Perm.refl _

/-- When the columns of a statement clash.  In each select, the columns are links and outputs, and
their names differ exactly if no output is called like a link.  If no output of the query is called
like a link that is counted off, no select has two columns of one name, and every column that is
read from a common table expression is a single one. -/
theorem clash_iff_output_named_as_link (h : query.compile target = .ok statement)
    (hdistinct : (query.outputs.map Prod.fst).Nodup) :
    (∀ select ∈ statement.selects, ∃ links outputs,
      select.Splits (query.outputs.map Prod.fst) links outputs ∧
        ((select.items.map Sql.SelectItem.aliasName).Nodup ↔ links.Disjoint outputs)) ∧
      ((∀ output ∈ query.outputs, ¬ Sql.LinkName output.1) → statement.Unambiguous) := by
  have hsplits := exists_splits h
  refine ⟨fun select hselect => ?_, fun hplain => ?_⟩
  · obtain ⟨links, outputs, hsplit, -⟩ := hsplits select hselect
    exact ⟨links, outputs, hsplit, Sql.Select.ExposesAmong.nodup_iff_disjoint hsplit.items
      hsplit.distinct hsplit.outputs hdistinct⟩
  · obtain ⟨tree, -, hstatement⟩ := QueryTree.exists_of_compile h
    obtain ⟨hctes, hbody, hnames, -⟩ := QueryTree.inOrder_of_statement hstatement
    refine Sql.Statement.unambiguous_of_nodup (Sql.Statement.ordered hctes hbody hnames) ?_ ?_
    · intro select hselect
      rcases List.mem_append.1 hselect with hselect | hselect
      · exact hctes.scopedIn select hselect
      · exact List.mem_singleton.1 hselect ▸ hbody
    · intro select hselect
      obtain ⟨links, outputs, hsplit, hnone | hlinks⟩ := hsplits select hselect
      · rw [Sql.Select.ExposesAmong.nodup_iff_disjoint hsplit.items hsplit.distinct hsplit.outputs
          hdistinct, hnone]
        exact List.disjoint_nil_right _
      · rw [Sql.Select.ExposesAmong.nodup_iff_disjoint hsplit.items hsplit.distinct hsplit.outputs
          hdistinct]
        intro name hlink houtput
        obtain ⟨output, hmem, rfl⟩ := List.mem_map.1 (hsplit.outputs.subset houtput)
        exact hplain output hmem (hlinks _ hlink)

theorem clash_iff_output_named_as_link_pedigree :
    ∃ statement, (ofPattern pedigree).compile farm = .ok statement ∧ statement.Unambiguous ∧
      ∀ select ∈ statement.selects, ∃ links outputs,
        select.Splits ["animal", "owner", "ancestor", "town", "young"] links outputs ∧
          links.Disjoint outputs := by
  obtain ⟨statement, hstatement⟩ := exists_compile_pedigree
  obtain ⟨hsplits, hunambiguous⟩ := clash_iff_output_named_as_link hstatement (by decide)
  have hplain : ∀ output ∈ (ofPattern pedigree).outputs, ¬ Sql.Reserved output.1 := by decide
  have hclear := hunambiguous fun output houtput hlink => hplain output houtput hlink.reserved
  refine ⟨statement, hstatement, hclear, fun select hselect => ?_⟩
  obtain ⟨links, outputs, hsplit, hiff⟩ := hsplits select hselect
  exact ⟨links, outputs, hsplit, hiff.1 (hclear.distinct select hselect)⟩

/-- Animals and their ancestors, where the names of the animals are called like the first link. -/
def forebears : Pattern where
  startClass := "Animal"
  vertex := ⟨"Animal", [], [⟨"name", "__link_1"⟩]⟩
  branches :=
    .branch ⟨⟨"child", .inward⟩, .recurse 2⟩ ⟨"Animal", [], [⟨"name", "ancestor"⟩]⟩ .none .none

/-- The first scope projects the names and the keys of the animals under one name, by which the
anchor of the recursive table reads one of them. -/
theorem link_named_twice :
    ∃ statement, (ofPattern forebears).compile farm = .ok statement ∧
      ((ofPattern forebears).outputs.map Prod.fst).Nodup ∧ ¬ statement.Unambiguous := by
  have hnames : ((ofPattern forebears).compile farm).map (fun statement =>
      statement.selects.head?.map fun select => select.items.map Sql.SelectItem.aliasName) =
      .ok (some [some "__link_1", some "__link_1"]) := by cbv
  obtain ⟨statement, hstatement, hsame⟩ := map_eq_ok_iff.1 hnames
  obtain ⟨select, hselect, hitems⟩ := Option.map_eq_some_iff.1 hsame
  refine ⟨statement, hstatement, by decide, fun hclear => ?_⟩
  have hnodup := hclear.distinct select (List.mem_of_mem_head? hselect)
  rw [hitems] at hnodup
  exact absurd hnodup (by decide)

end Query

end TraversalSql
