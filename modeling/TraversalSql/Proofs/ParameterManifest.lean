import TraversalSql.Proofs.FilterParameters
import TraversalSql.Proofs.OptionalMatches
import TraversalSql.Proofs.Placeholders

/-!
The parameters that a statement lists.  Parameters stand in the conditions of filters and nowhere
else, and each filter has one condition.  So the list names exactly the parameters of the filters of
a query, in the order in which the text of the statement first names them, and it marks those that a
membership test reads as a list.
-/

namespace TraversalSql

open Outcome

namespace Sql

def Join.IsFixed (join : Join) : Prop := ∀ e ∈ join.conditions, e.parameters = []

/-- A select has parameters in its conditions only. -/
structure Select.AsksByFilters (select : Select) : Prop where
  items : ∀ item ∈ select.items, item.expression.parameters = []
  joins : ∀ join ∈ select.source.joins, join.IsFixed
  groupBy : ∀ e ∈ select.groupBy, e.parameters = []

/-- A common table expression has parameters in conditions only, and a recursive one has none. -/
def Cte.AsksByFilters (cte : Cte) : Prop :=
  match cte.content with
  | .select query => query.AsksByFilters
  | .recursive anchor step _ => ∀ e ∈ anchor.expressions ++ step.expressions, e.parameters = []

theorem Select.AsksByFilters.mem_filters {select : Select} (h : select.AsksByFilters) {e : Expr}
    (he : e ∈ select.expressions) (hne : e.parameters ≠ []) : e ∈ select.filters := by
  rcases mem_expressions_iff.1 he with ⟨item, hitem, rfl⟩ | ⟨join, hjoin, he⟩ | he | he
  · exact absurd (h.items item hitem) hne
  · exact absurd (h.joins join hjoin e he) hne
  · exact he
  · exact absurd (h.groupBy e he) hne

end Sql

theorem isFixed_map_join (hops : List JoinHop) (kind : Sql.JoinKind) :
    ∀ join ∈ hops.map (JoinHop.join · kind), join.IsFixed := by
  intro join hjoin e he
  obtain ⟨hop, -, rfl⟩ := List.mem_map.1 hjoin
  rw [List.mem_singleton.1 he]
  rfl

/-- A join that compares two columns has no parameters. -/
theorem isFixed_of_columns {kind : Sql.JoinKind} {table : Sql.TableRef} {t n t' n' : String} :
    (⟨kind, table, [.equals (.column t n) (.column t' n')]⟩ : Sql.Join).IsFixed := by
  intro e he
  rw [List.mem_singleton.1 he]
  rfl

theorem Members.MadeBy.isFixed {members : Members} {target : Target} {scopeRoot : Node}
    {tops : List Member} {bindings : List Binding} {supply later : Sql.AliasSupply}
    (h : members.MadeBy target scopeRoot tops bindings supply later) :
    ∀ join ∈ members.joins, join.IsFixed := by
  intro join hjoin
  rw [h.joins] at hjoin
  obtain ⟨binding, -, hjoin⟩ := List.mem_flatMap.1 hjoin
  exact isFixed_map_join _ _ join hjoin

theorem Members.parameters_of_mem_outputs {members : Members} {schema : Schema}
    {outputs : List (NodeOutput × Sql.Expr)} (h : members.outputs schema = .ok outputs) :
    ∀ output ∈ outputs, output.2.parameters = [] := by
  rintro ⟨output, expression⟩ houtput
  obtain ⟨m, -, -, column, -, rfl⟩ := Members.exists_of_mem_outputs h houtput
  rfl

theorem isFixed_of_scopeSource {entry : Option RecursionEntry} {table : Table}
    {aliasName : String} {source : Sql.FromClause}
    (h : scopeSource entry table aliasName = .ok source) : ∀ join ∈ source.joins, join.IsFixed := by
  cases entry with
  | none =>
      obtain rfl := Except.ok.inj h
      exact fun join hjoin => absurd hjoin List.not_mem_nil
  | some entry =>
      obtain ⟨key, -, hsource⟩ := bind_eq_ok_iff.1 h
      obtain rfl := pure_eq_ok_iff.1 hsource
      exact List.forall_mem_singleton.2 isFixed_of_columns

/-- The columns of a scope have no parameters. -/
def FixedColumns (columns : List ScopeColumn) : Prop := ∀ c ∈ columns, c.expression.parameters = []

theorem FixedColumns.readFrom (columns : List ScopeColumn) (cte : String) :
    FixedColumns (columns.map (·.readFrom cte)) := by
  intro column hcolumn
  obtain ⟨source, -, rfl⟩ := List.mem_map.1 hcolumn
  rfl

/-- A fold has parameters in the conditions of its own select only. -/
theorem FoldMade.asksByFilters {target : Target} {owner : Member} {fold : Group}
    {query : FoldQuery} {supply later : Sql.AliasSupply}
    (h : FoldMade target owner fold query supply later) :
    query.cte.AsksByFilters ∧ query.join.IsFixed ∧ FixedColumns query.columns := by
  obtain ⟨traversal, table, first, rest, members, filters, outputs, joined, bound, -, -, -,
    hmembers, -, houtputs, rfl, -⟩ := h
  obtain ⟨bindings, hmade, -⟩ := exists_bindings_of_bindGroup _ hmembers
  have hcolumns := Members.parameters_of_mem_outputs houtputs
  refine ⟨⟨?items, ?joins, ?groups⟩, isFixed_of_columns, ?columns⟩
  case items =>
    intro item hitem
    rcases List.mem_cons.1 hitem with rfl | hitem
    · rfl
    · obtain ⟨output, houtput, rfl⟩ := List.mem_map.1 hitem
      simp only [Target.foldAggregate, Sql.Expr.parameters, Sql.Expr.parametersOfAll,
        Sql.Expr.parametersOfAll_raw, hcolumns output houtput, List.append_nil]
  case joins => exact List.forall_mem_append.2 ⟨isFixed_map_join _ _, hmade.isFixed⟩
  case groups =>
    intro e he
    rw [List.mem_singleton.1 he]
    rfl
  case columns =>
    intro column hcolumn
    obtain ⟨output, -, rfl⟩ := List.mem_map.1 hcolumn
    rfl

/-- A scope has parameters in conditions only. -/
structure ScopeEmission.AsksByFilters (emission : ScopeEmission) : Prop where
  ctes : ∀ cte ∈ emission.ctes, cte.AsksByFilters
  joins : ∀ join ∈ emission.query.source.joins, join.IsFixed
  columns : FixedColumns emission.query.columns

theorem ScopeEmission.AsksByFilters.select {emission : ScopeEmission} (h : emission.AsksByFilters)
    {columns : List ScopeColumn} (hcolumns : FixedColumns columns) :
    ({ emission.query with columns } : ScopeQuery).select.AsksByFilters where
  items := by
    intro item hitem
    obtain ⟨column, hcolumn, rfl⟩ := List.mem_map.1 hitem
    exact hcolumns column hcolumn
  joins := h.joins
  groupBy := fun _ he => absurd he List.not_mem_nil

theorem FixedColumns.append {columns others : List ScopeColumn} (h : FixedColumns columns)
    (hothers : FixedColumns others) : FixedColumns (columns ++ others) :=
  List.forall_mem_append.2 ⟨h, hothers⟩

/-- A scope without its recursions has parameters in conditions only. -/
theorem BaseMade.asksByFilters {target : Target} {entry : Option RecursionEntry} {group : Group}
    {folds : List Group} {members : Members} {emission : ScopeEmission}
    {supply later : Sql.AliasSupply}
    (h : BaseMade target entry group folds members emission supply later) :
    emission.AsksByFilters := by
  obtain ⟨table, start, outputs, folded, filters, bound, -, hstart, hmembers, houtputs, hfolded, -,
    rfl⟩ := h
  obtain ⟨bindings, hmade, -⟩ := exists_bindings_of_bindGroup _ hmembers
  have hfolds : ∀ query ∈ folded,
      query.cte.AsksByFilters ∧ query.join.IsFixed ∧ FixedColumns query.columns := by
    intro query hquery
    obtain ⟨fold, -, _, _, owner, -, hfold⟩ := hfolded.exists_of_mem hquery
    exact hfold.asksByFilters
  constructor
  case ctes =>
    intro cte hcte
    obtain ⟨query, hquery, rfl⟩ := List.mem_map.1 hcte
    exact (hfolds query hquery).1
  case joins =>
    intro join hjoin
    rcases mem_joins_baseEmission_iff.1 hjoin with hjoin | hjoin | ⟨query, hquery, rfl⟩
    · exact isFixed_of_scopeSource hstart join hjoin
    · exact hmade.isFixed join hjoin
    · exact (hfolds query hquery).2.1
  case columns =>
    refine .append (.append ?_ ?_) ?_
    · cases entry <;> simp [FixedColumns, entryColumns, ScopeColumn.link, Sql.Expr.parameters]
    · intro column hcolumn
      obtain ⟨output, houtput, rfl⟩ := List.mem_map.1 hcolumn
      exact Members.parameters_of_mem_outputs houtputs output houtput
    · intro column hcolumn
      obtain ⟨query, hquery, hcolumn⟩ := List.mem_flatMap.1 hcolumn
      exact (hfolds query hquery).2.2 column hcolumn

namespace Recursion

theorem parameters_stepSelect {recursion : Recursion} {joins : List Sql.Join} {next key : String}
    (hjoins : ∀ join ∈ joins, join.IsFixed) :
    ∀ e ∈ (recursion.stepSelect joins next key).expressions, e.parameters = [] := by
  intro e he
  rcases Sql.Select.mem_expressions_iff.1 he with
    ⟨item, hitem, rfl⟩ | ⟨join, hjoin, he⟩ | he | he
  · simp only [stepSelect, stepItems, List.mem_cons, List.not_mem_nil, or_false] at hitem
    rcases hitem with rfl | rfl | rfl | rfl <;> rfl
  · exact hjoins join hjoin e he
  · simp only [stepSelect, stepFilters, List.mem_cons, List.not_mem_nil, or_false] at he
    rcases he with rfl | rfl <;> rfl
  · exact absurd he List.not_mem_nil

/-- A step has no parameters. -/
theorem StepMade.parameters_eq_nil {recursion : Recursion} {target : Target} {select : Sql.Select}
    {supply later : Sql.AliasSupply} (h : recursion.StepMade target select supply later) :
    ∀ e ∈ select.expressions, e.parameters = [] := by
  cases h with
  | @fromKey table key joined _ _ _ _ _ _ =>
      apply parameters_stepSelect
      cases joined with
      | nil => exact fun join hjoin => absurd hjoin List.not_mem_nil
      | cons first rest => exact List.forall_mem_cons.2 ⟨isFixed_of_columns, isFixed_map_join _ _⟩
  | fromRow =>
      apply parameters_stepSelect
      exact List.forall_mem_cons.2 ⟨isFixed_of_columns, isFixed_map_join _ _⟩

theorem parameters_anchor (recursion : Recursion) :
    ∀ e ∈ recursion.anchor.expressions, e.parameters = [] := by
  intro e he
  simp only [anchor, Sql.Select.expressions, List.map_cons, List.map_nil, List.flatMap_nil,
    List.append_nil, List.cons_append, List.nil_append, List.mem_cons, List.not_mem_nil,
    or_false] at he
  rcases he with rfl | rfl | rfl | rfl | rfl <;> rfl

end Recursion

/-- A recursive table has no parameters. -/
theorem TableMade.asksByFilters {target : Target} {scopeCte link : String} {recursion : Node}
    {table : Sql.Cte} {entry : RecursionEntry} {supply later : Sql.AliasSupply}
    (h : TableMade target scopeCte link recursion table entry supply later) :
    table.AsksByFilters := by
  obtain ⟨walk, step, combinator, -, hstep, -, rfl, -⟩ := h
  exact List.forall_mem_append.2 ⟨walk.parameters_anchor, hstep.parameters_eq_nil⟩

/-- Every emitted scope has parameters in conditions only. -/
theorem asksByFilters_of_emitScope {target : Target} {scope : Scope}
    {entry : Option RecursionEntry} {emission : ScopeEmission} {supply later : Sql.AliasSupply}
    (h : emitScope target scope entry supply = .ok (emission, later)) :
    emission.AsksByFilters := by
  refine emitScope_induction (motive := fun _ _ emission _ _ => emission.AsksByFilters)
    ?plain ?wrapped scope h
  case plain =>
    intro group folds entry members base supply later hbase
    exact hbase.asksByFilters
  case wrapped =>
    intro group folds recursions entry members base links attached supply based linked later _ hbase
      hlinks hattached
    have hbase := hbase.asksByFilters
    have hlinked : FixedColumns links := by
      intro column hcolumn
      obtain ⟨recursion, -, _, _, owner, table, key, -, -, -, -, rfl, -⟩ :=
        hlinks.exists_of_mem hcolumn
      rfl
    constructor
    case ctes =>
      intro cte hcte
      rcases mem_ctes_wrappedEmission_iff.1 hcte with hcte | rfl | ⟨recursion, hrecursion, hcte⟩
      · exact hbase.ctes cte hcte
      · exact hbase.select (hbase.columns.append hlinked)
      · obtain ⟨source, -, _, _, table, entry, emission, walked, bound, htable, hemission, rfl,
          -⟩ := hattached.exists_of_mem hrecursion
        rcases mem_ctes_attach_iff.1 hcte with rfl | hcte | rfl
        · exact htable.asksByFilters
        · exact hemission.ctes cte hcte
        · exact hemission.select hemission.columns
    case joins =>
      intro join hjoin
      obtain ⟨recursion, hrecursion, rfl⟩ := List.mem_map.1 hjoin
      obtain ⟨source, -, _, _, table, entry, emission, walked, bound, -, -, rfl, -⟩ :=
        hattached.exists_of_mem hrecursion
      exact isFixed_of_columns
    case columns =>
      refine .append (.readFrom _ _) fun column hcolumn => ?_
      obtain ⟨recursion, hrecursion, hcolumn⟩ := List.mem_flatMap.1 hcolumn
      obtain ⟨source, -, _, _, table, entry, emission, walked, bound, -, -, rfl, -⟩ :=
        hattached.exists_of_mem hrecursion
      exact FixedColumns.readFrom _ _ column hcolumn

namespace Sql

/-- The expressions of a statement in the order in which they are written. -/
def Statement.expressions (statement : Statement) : List Expr :=
  statement.selects.flatMap Select.expressions

/-- The parameters that a statement lists are exact, when given parameters are asked for. -/
structure Statement.ListsExactly (statement : Statement) (asked : List String) : Prop where
  /-- No parameter is listed twice. -/
  distinct : (statement.parameters.map Parameter.name).Nodup
  /-- Parameters are listed in the order in which the text of the statement first names them,
  whatever dialect it is written in. -/
  ordered : ∀ dialect, Piece.written (statement.pieces dialect) = statement.print dialect ∧
    statement.parameters.map Parameter.name =
      (Piece.placeholders (statement.pieces dialect)).eraseDups
  /-- The parameters that occur in the statement are listed. -/
  occurring : ∀ name, name ∈ statement.parameters.map Parameter.name ↔
    ∃ e ∈ statement.expressions, (Expr.parameter name).OccursIn e
  /-- The parameters that are asked for are listed. -/
  asked : ∀ name, name ∈ statement.parameters.map Parameter.name ↔ name ∈ asked
  /-- A parameter is marked as a list exactly if it is read as one somewhere. -/
  expanding : ∀ parameter ∈ statement.parameters, parameter.expanding = true ↔
    ∃ e ∈ statement.expressions, e.ReadsList parameter.name

/-- Conditions that stand in the selects outside recursive tables are expressions of the
statement. -/
theorem Statement.mem_expressions_of_mem_placed {statement : Statement} {place : Select × Expr}
    (h : place ∈ placed statement.plainSelects) : place.2 ∈ statement.expressions := by
  obtain ⟨select, hselect, hplace⟩ := List.mem_flatMap.1 h
  obtain ⟨condition, hcondition, rfl⟩ := List.mem_map.1 hplace
  have hmem : select ∈ statement.selects :=
    statement.selects_perm.mem_iff.2 (List.mem_append_left _ hselect)
  refine List.mem_flatMap.2 ⟨select, hmem, ?_⟩
  exact Select.mem_expressions_iff.2 (.inr (.inr (.inl hcondition)))

/-- Where parameters stand in conditions only, an expression with a parameter is a condition of a
select outside recursive tables. -/
theorem Statement.exists_placed {statement : Statement}
    (hctes : ∀ cte ∈ statement.ctes, cte.AsksByFilters) (hbody : statement.body.AsksByFilters)
    {e : Expr} (he : e ∈ statement.expressions) (hne : e.parameters ≠ []) :
    ∃ place ∈ placed statement.plainSelects, place.2 = e := by
  have hplaced : ∀ select ∈ statement.plainSelects, select.AsksByFilters →
      e ∈ select.expressions → ∃ place ∈ placed statement.plainSelects, place.2 = e := by
    intro select hselect hasks hmem
    exact ⟨(select, e), List.mem_flatMap.2 ⟨select, hselect,
      List.mem_map_of_mem (hasks.mem_filters hmem hne)⟩, rfl⟩
  obtain ⟨select, hselect, hmem⟩ := List.mem_flatMap.1 he
  rcases List.mem_append.1 hselect with hselect | hselect
  · obtain ⟨⟨name, content, isRecursive⟩, hcte, hselect⟩ := List.mem_flatMap.1 hselect
    have hasks := hctes _ hcte
    cases content with
    | select query =>
        obtain rfl := List.mem_singleton.1 hselect
        exact hplaced select (List.mem_append_left _ (List.mem_filterMap.2 ⟨_, hcte, rfl⟩)) hasks
          hmem
    | recursive anchor step combinator =>
        refine absurd (hasks e ?_) hne
        rw [List.mem_append]
        rcases List.mem_cons.1 hselect with rfl | hselect
        · exact .inl hmem
        · exact .inr (List.mem_singleton.1 hselect ▸ hmem)
  · obtain rfl := List.mem_singleton.1 hselect
    exact hplaced _ (List.mem_append_right _ List.mem_cons_self) hbody hmem

end Sql

namespace QueryTree

theorem parameters_of_statement {tree : QueryTree} {target : Target} {statement : Sql.Statement}
    (h : tree.statement target = .ok statement) :
    statement.parameters = tree.manifest statement.ctes statement.body := by
  obtain ⟨emission, -, hmade⟩ := bind_eq_ok_iff.1 h
  obtain rfl := pure_eq_ok_iff.1 hmade
  rfl

theorem map_name_manifest (tree : QueryTree) (ctes : List Sql.Cte) (body : Sql.Select) :
    (tree.manifest ctes body).map Sql.Parameter.name =
      ((ctes.flatMap Sql.Cte.selects ++ [body]).flatMap
        fun select => select.expressions.flatMap Sql.Expr.parameters).eraseDups := by
  simp [manifest, Function.comp_def]

/-- A statement has parameters in conditions only. -/
theorem asksByFilters_of_statement {tree : QueryTree} {target : Target} {statement : Sql.Statement}
    (h : tree.statement target = .ok statement) :
    (∀ cte ∈ statement.ctes, cte.AsksByFilters) ∧ statement.body.AsksByFilters := by
  obtain ⟨emission, hemission, hctes, hbody⟩ := exists_of_statement_eq_ok h
  obtain ⟨root, made, later, -, hmade, -, rfl⟩ := exists_of_emission_eq_ok hemission
  have hasks := asksByFilters_of_emitScope hmade
  rw [hctes, hbody]
  refine ⟨hasks.ctes, hasks.select fun column hcolumn => ?_⟩
  exact hasks.columns column (mem_sortedOutputs_iff.1 hcolumn).1

end QueryTree

/-- The parameters of an instruction that filters. -/
def Instruction.params : Instruction → List String
  | .filter _ _ params _ => params
  | _ => []

namespace Query

theorem flatMap_params_requestsOf (instructions : List Instruction) :
    (requestsOf instructions).flatMap FilterRequest.params =
      instructions.flatMap Instruction.params := by
  induction instructions with
  | nil => rfl
  | cons instruction rest ih =>
      cases instruction <;> simp [requestsOf, Instruction.params, ih]

/-- A parameter is marked as a list if a filter that takes a collection has it. -/
theorem isExpanding_iff {query : Query} {read : Blocks} (hread : query.blocks = .ok read)
    (hassemblable : Assemblable read) {name : String} :
    read.tree.isExpanding name = true ↔
      ∃ request ∈ query.requests, request.TakesCollection ∧ name ∈ request.params := by
  have hmet := (reading_of_blocks hread).met
  have hperm := Blocks.predicates_nodes_perm hassemblable
  have hnodes : read.tree.isExpanding name = true ↔
      ∃ p ∈ read.blocks.filterMap Block.predicate?,
        p.operator.cardinality = .many ∧ name ∈ p.params := by
    simp only [QueryTree.isExpanding, List.any_eq_true, Bool.and_eq_true, beq_iff_eq,
      List.contains_iff_mem]
    constructor
    · rintro ⟨node, hnode, p, hp, hmany, hname⟩
      obtain ⟨q, hq, rfl⟩ := List.mem_map.1 (hperm.subset (List.mem_flatMap.2 ⟨node, hnode, hp⟩))
      exact ⟨q, hq, hmany, hname⟩
    · rintro ⟨p, hp, hmany, hname⟩
      obtain ⟨node, hnode, hattached⟩ := List.mem_flatMap.1
        (hperm.symm.subset (List.mem_map_of_mem (f := Predicate.attached read.place?) hp))
      exact ⟨node, hnode, p.attached read.place?, hattached, hmany, hname⟩
  rw [hnodes]
  constructor
  · rintro ⟨p, hp, hmany, hname⟩
    obtain ⟨request, hrequest, hmet⟩ := exists_left_of_forall₂ hmet hp
    exact ⟨request, hrequest, ⟨p.operator, hmet.operator, hmany⟩, hmet.params ▸ hname⟩
  · rintro ⟨request, hrequest, ⟨operator, hoperator, hmany⟩, hname⟩
    obtain ⟨p, hp, hmet⟩ := exists_right_of_forall₂ hmet hrequest
    obtain rfl := Option.some.inj (hoperator.symm.trans hmet.operator)
    exact ⟨p, hp, hmany, hmet.params ▸ hname⟩

/-- The conditions of the selects outside recursive tables are those of the filters of the query,
one for each filter. -/
theorem paired_conditions {query : Query} {target : Target} {statement : Sql.Statement}
    {read : Blocks} (hread : query.blocks = .ok read) (hassemblable : Assemblable read)
    (hstatement : read.tree.statement target = .ok statement) :
    ∃ members, Paired (fun request place =>
      FilterRequest.StandsAt request target.schema members statement.plainSelects place)
      query.requests (Sql.placed statement.plainSelects) := by
  have hdistinct := (QueryTree.inOrder_of_statement hstatement).2.2.2
  obtain ⟨emission, hemission, hctes, hbody⟩ := QueryTree.exists_of_statement_eq_ok hstatement
  have hselects : statement.plainSelects =
      Sql.plainSelects emission.ctes ++ [emission.query.select] := by
    rw [Sql.Statement.plainSelects, hctes, hbody]
  have hpaired := paired_requests hread hassemblable hemission hselects fun select hselect =>
    hdistinct select (statement.selects_perm.mem_iff.2 (List.mem_append_left _ hselect))
  exact ⟨emission.bound, hpaired.imp fun _ _ hstands => hstands.1⟩

/-- What only conditions with parameters can have, some expression of a statement has exactly if the
condition of some filter has it. -/
theorem exists_expression_iff {statement : Sql.Statement}
    (hctes : ∀ cte ∈ statement.ctes, cte.AsksByFilters) (hbody : statement.body.AsksByFilters)
    {requests : List FilterRequest} {R : FilterRequest → Sql.Select × Sql.Expr → Prop}
    (hpaired : Paired R requests (Sql.placed statement.plainSelects))
    {P : Sql.Expr → Prop} {Q : FilterRequest → Prop} (hne : ∀ e, P e → e.parameters ≠ [])
    (hiff : ∀ request place, R request place → (P place.2 ↔ Q request)) :
    (∃ e ∈ statement.expressions, P e) ↔ ∃ request ∈ requests, Q request := by
  obtain ⟨places, hplaces, hperm⟩ := hpaired
  constructor
  · rintro ⟨e, he, hP⟩
    obtain ⟨place, hplace, rfl⟩ := Sql.Statement.exists_placed hctes hbody he (hne e hP)
    obtain ⟨request, hrequest, hR⟩ := exists_left_of_forall₂ hplaces (hperm.mem_iff.2 hplace)
    exact ⟨request, hrequest, (hiff request place hR).1 hP⟩
  · rintro ⟨request, hrequest, hQ⟩
    obtain ⟨place, hplace, hR⟩ := exists_right_of_forall₂ hplaces hrequest
    exact ⟨place.2, Sql.Statement.mem_expressions_of_mem_placed (hperm.mem_iff.1 hplace),
      (hiff request place hR).2 hQ⟩

/-- The parameters of a statement are exact for the filters of the query. -/
theorem listsExactly_of_compile {query : Query} {target : Target} {statement : Sql.Statement}
    (h : query.compile target = .ok statement) :
    statement.ListsExactly (query.instructions.flatMap Instruction.params) := by
  obtain ⟨tree, htree, hstatement⟩ := QueryTree.exists_of_compile h
  obtain ⟨read, hread, hofBlocks⟩ := bind_eq_ok_iff.1 htree
  obtain ⟨hassemblable, rfl⟩ := ofBlocks_eq_ok_iff.1 hofBlocks
  obtain ⟨hctes, hbody⟩ := QueryTree.asksByFilters_of_statement hstatement
  obtain ⟨members, hpaired⟩ := paired_conditions hread hassemblable hstatement
  have hparameters := QueryTree.parameters_of_statement hstatement
  have hnames := QueryTree.map_name_manifest read.tree statement.ctes statement.body
  rw [← hparameters] at hnames
  have hmem : ∀ name, name ∈ statement.parameters.map Sql.Parameter.name ↔
      ∃ e ∈ statement.expressions, name ∈ e.parameters := by
    intro name
    rw [hnames, List.mem_eraseDups, ← List.flatMap_assoc, List.mem_flatMap]
    rfl
  constructor
  case distinct =>
    rw [hnames]
    exact nodup_eraseDups _
  case ordered =>
    intro dialect
    refine ⟨statement.written_pieces dialect, ?_⟩
    rw [hnames, statement.placeholders_pieces dialect]
  case occurring =>
    intro name
    simp only [hmem, Sql.Expr.mem_parameters_iff]
  case asked =>
    intro name
    rw [hmem, ← flatMap_params_requestsOf, List.mem_flatMap]
    refine exists_expression_iff hctes hbody hpaired (fun _ => List.ne_nil_of_mem) ?_
    intro request place hstands
    rw [hstands.parameters_eq]
  case expanding =>
    intro parameter hparameter
    have hmarked : parameter.expanding = read.tree.isExpanding parameter.name := by
      rw [hparameters] at hparameter
      obtain ⟨name, -, rfl⟩ := List.mem_map.1 hparameter
      rfl
    rw [hmarked, isExpanding_iff hread hassemblable]
    refine (exists_expression_iff hctes hbody hpaired ?_ ?_).symm
    · exact fun e hlist => List.ne_nil_of_mem hlist.mem_parameters
    · exact fun request place hstands => hstands.readsList_iff

theorem listsExactly_pedigree :
    ∃ statement, (ofPattern pedigree).compile farm = .ok statement ∧
      statement.parameters = [⟨"$limit", false⟩, ⟨"$names", true⟩] ∧
      statement.ListsExactly ((ofPattern pedigree).instructions.flatMap Instruction.params) := by
  have hlisted : ((ofPattern pedigree).compile farm).toOption.map Sql.Statement.parameters =
      some [⟨"$limit", false⟩, ⟨"$names", true⟩] := by cbv
  obtain ⟨statement, hstatement⟩ := exists_compile_pedigree
  rw [hstatement] at hlisted
  exact ⟨statement, hstatement, Option.some.inj hlisted, listsExactly_of_compile hstatement⟩

end Query

end TraversalSql
