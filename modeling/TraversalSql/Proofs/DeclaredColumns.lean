import TraversalSql.Proofs.SchemaChecks
import TraversalSql.Proofs.Scoping

/-!
Which columns a statement reads from stored tables.  The fields of a query, the keys of its
recursions and the edges that are configured lead to columns that the tables declare.  An edge that
is only suggested by a foreign key leads to the two columns that the key names, and those are never
looked up in a table.
-/

namespace TraversalSql

open Outcome

/-- A column is one of a common table expression, or one that the schema knows of a stored table. -/
def Schema.Serves (schema : Schema) (tables : List Sql.TableRef) (column : String × String) :
    Prop :=
  Sql.TableRef.cte column.1 none ∈ tables ∨
    ∃ table, schema.Knows table column.2 ∧ table.reference column.1 ∈ tables

/-- Every column that an expression reads is served by some tables. -/
def Sql.Expr.ServedBy (e : Sql.Expr) (schema : Schema) (tables : List Sql.TableRef) : Prop :=
  ∀ column ∈ e.columns, schema.Serves tables column

namespace Sql

variable {schema : Schema} {tables others : List TableRef}

theorem Expr.ServedBy.mono {e : Expr} (h : e.ServedBy schema tables) (hothers : tables ⊆ others) :
    e.ServedBy schema others := by
  intro column hcolumn
  rcases h column hcolumn with hcte | ⟨table, hknows, htable⟩
  · exact .inl (hothers hcte)
  · exact .inr ⟨table, hknows, hothers htable⟩

theorem Expr.servedBy_cte {name : String} (h : .cte name none ∈ tables) (column : String) :
    (Expr.column name column).ServedBy schema tables := by
  intro read hread
  obtain rfl := List.mem_singleton.1 hread
  exact .inl h

theorem Expr.servedBy_stored {table : Table} {aliasName column : String}
    (hknows : schema.Knows table column) (h : table.reference aliasName ∈ tables) :
    (Expr.column aliasName column).ServedBy schema tables := by
  intro read hread
  obtain rfl := List.mem_singleton.1 hread
  exact .inr ⟨table, hknows, h⟩

theorem Expr.servedBy_equals {left right : Expr} (hleft : left.ServedBy schema tables)
    (hright : right.ServedBy schema tables) : (Expr.equals left right).ServedBy schema tables := by
  intro column hcolumn
  rw [Expr.equals, Expr.columns_apply, List.flatMap_cons, List.flatMap_singleton,
    List.mem_append] at hcolumn
  exact hcolumn.elim (hleft column) (hright column)

/-- All clauses of a select read columns that its tables serve. -/
structure Select.Served (select : Select) (schema : Schema) : Prop where
  items : ∀ item ∈ select.items, item.expression.ServedBy schema select.source.tables
  joins : ∀ join ∈ select.source.joins, ∀ e ∈ join.conditions,
    e.ServedBy schema select.source.tables
  filters : ∀ e ∈ select.filters, e.ServedBy schema select.source.tables
  groups : ∀ e ∈ select.groupBy, e.ServedBy schema select.source.tables

theorem Select.Served.servedBy {select : Select} (h : select.Served schema) :
    ∀ e ∈ select.expressions, e.ServedBy schema select.source.tables := by
  intro e he
  rcases mem_expressions_iff.1 he with ⟨item, hitem, rfl⟩ | ⟨join, hjoin, he⟩ | he | he
  · exact h.items item hitem
  · exact h.joins join hjoin e he
  · exact h.filters e he
  · exact h.groups e he

end Sql

section Joins

variable {schema : Schema} (hschema : schema.Checked)
include hschema

/-- A path compares a known column of the table that it leaves with a known column of the first
table that it joins, and goes on from there by known columns of the tables on the way. -/
theorem JoinPath.exists_known {outer inner : BoundVertex} {traversal : Traversal}
    {hops : List JoinHop} {supply later : Sql.AliasSupply}
    (h : JoinPath schema outer inner traversal supply hops later) {outerTable : Table}
    (houter : schema.tableOf outer.typeName = .ok outerTable) :
    ∃ first rest, hops = first :: rest ∧ first.outerAlias = outer.aliasName ∧
      schema.Knows outerTable first.outerColumn ∧
      (∀ tables, first.table ∈ tables → first.inner.ServedBy schema tables) ∧
      ∀ hop ∈ rest, hop.condition.ServedBy schema (hops.map JoinHop.table) := by
  cases h with
  | direct hhops htable =>
      obtain ⟨hleft, hreached, -⟩ := hschema.hopsKnown_of_hopsBetween hhops houter htable
      refine ⟨_, [], rfl, rfl, hleft, fun tables htables => ?_, by simp⟩
      exact Sql.Expr.servedBy_stored hreached htables
  | junction hhops hjunction htable =>
      obtain ⟨hleft, hpassed⟩ := hschema.hopsKnown_of_hopsBetween hhops houter htable
      obtain ⟨hentered, hexited, hreached, -⟩ := hpassed _ hjunction
      refine ⟨_, [_], rfl, rfl, hleft, fun tables => Sql.Expr.servedBy_stored hentered,
        List.forall_mem_singleton.2 (Sql.Expr.servedBy_equals ?_ ?_)⟩
      · exact Sql.Expr.servedBy_stored hexited List.mem_cons_self
      · exact Sql.Expr.servedBy_stored hreached (List.mem_cons_of_mem _ List.mem_cons_self)

/-- The joins of a path from a table that is there compare columns that are served. -/
theorem JoinPath.servedBy {outer inner : BoundVertex} {traversal : Traversal}
    {hops : List JoinHop} {supply later : Sql.AliasSupply}
    (h : JoinPath schema outer inner traversal supply hops later) {outerTable : Table}
    (houter : schema.tableOf outer.typeName = .ok outerTable) {tables : List Sql.TableRef}
    (hleft : outerTable.reference outer.aliasName ∈ tables)
    (htables : hops.map JoinHop.table ⊆ tables) :
    ∀ hop ∈ hops, hop.condition.ServedBy schema tables := by
  obtain ⟨first, rest, rfl, halias, hknown, hinner, hrest⟩ := h.exists_known hschema houter
  refine List.forall_mem_cons.2 ⟨Sql.Expr.servedBy_equals ?_ ?_, fun hop hhop => ?_⟩
  · exact Sql.Expr.servedBy_stored hknown (halias ▸ hleft)
  · exact hinner tables (htables List.mem_cons_self)
  · exact (hrest hop hhop).mono htables

/-- The fields of members are served by the select in which the members are bound. -/
theorem Members.serves_of_hasField {members : Members} {select : Sql.Select}
    (hbound : ∀ m ∈ members.bound, m.BoundIn schema select) {column : String × String}
    (h : members.HasField schema column) : schema.Serves select.source.tables column := by
  obtain ⟨m, hm, field, name, hname, rfl⟩ := h
  obtain ⟨table, htable, hmem⟩ := hbound m hm
  exact .inr ⟨table, hschema.knows_of_columnOf htable hname, hmem⟩

end Joins

namespace Recursion

/-- The columns that the items of a step read. -/
theorem columns_stepItems (recursion : Recursion) (next key : String) :
    (recursion.stepItems (.column next key)).flatMap (fun item => item.expression.columns) =
      [(recursion.name, Sql.anchorColumn), (next, key), (recursion.name, Sql.depthColumn),
        (recursion.name, Sql.pathColumn), (next, key)] := rfl

/-- The columns that the conditions of a step read. -/
theorem columns_stepFilters (recursion : Recursion) (next key : String) :
    (recursion.stepFilters (.column next key)).flatMap Sql.Expr.columns =
      [(recursion.name, Sql.depthColumn), (recursion.name, Sql.pathColumn), (next, key)] := rfl

/-- The anchor reads nothing but the key from which the walk starts. -/
theorem columns_anchor (recursion : Recursion) :
    recursion.anchor.expressions.flatMap Sql.Expr.columns =
      List.replicate 4 (recursion.source, recursion.link) := rfl

/-- The anchor of a recursive table reads the table from which it is fed. -/
theorem served_anchor (recursion : Recursion) (schema : Schema) :
    recursion.anchor.Served schema := by
  have hkey : ∀ e ∈ recursion.anchor.expressions,
      e.ServedBy schema recursion.anchor.source.tables := by
    intro e he column hcolumn
    have hread := List.mem_flatMap.2 ⟨e, he, hcolumn⟩
    rw [columns_anchor] at hread
    obtain rfl := List.eq_of_mem_replicate hread
    exact .inl List.mem_cons_self
  exact ⟨fun item hitem => hkey _ (Sql.Select.mem_expressions_iff.2 (.inl ⟨item, hitem, rfl⟩)),
    fun join hjoin => absurd hjoin List.not_mem_nil,
    fun e he => hkey e (Sql.Select.mem_expressions_iff.2 (.inr (.inr (.inl he)))),
    fun e he => absurd he List.not_mem_nil⟩

end Recursion

section Emission

variable {target : Target} (hschema : target.schema.Checked)
include hschema

/-- The joins of members compare columns that are served where the members are bound. -/
theorem Members.MadeBy.servedBy {members : Members} {scopeRoot : Node} {tops : List Member}
    {bindings : List Binding} {supply later : Sql.AliasSupply}
    (h : members.MadeBy target scopeRoot tops bindings supply later) {select : Sql.Select}
    (hbound : ∀ m ∈ members.bound, m.BoundIn target.schema select)
    (htables : members.joins.map Sql.Join.table ⊆ select.source.tables) :
    ∀ join ∈ members.joins, ∀ e ∈ join.conditions,
      e.ServedBy target.schema select.source.tables := by
  intro join hjoin e he
  rw [h.joins] at hjoin htables
  obtain ⟨binding, hbinding, hjoin⟩ := List.mem_flatMap.1 hjoin
  obtain ⟨hop, hhop, rfl⟩ := List.mem_map.1 hjoin
  obtain rfl := List.mem_singleton.1 he
  obtain ⟨_, _, _, _, -, -, -, hpath⟩ := h.made.made_of_mem hbinding
  have hparent : binding.parent ∈ members.bound :=
    h.bound.mem_iff.2 (h.made.parent_mem binding hbinding)
  obtain ⟨table, htable, hleft⟩ := hbound binding.parent hparent
  refine hpath.servedBy hschema htable hleft (fun joined hjoined => htables ?_) hop hhop
  obtain ⟨other, hother, rfl⟩ := List.mem_map.1 hjoined
  rw [List.map_flatMap]
  refine List.mem_flatMap.2 ⟨binding, hbinding, ?_⟩
  rw [Binding.joins, List.map_map]
  exact List.mem_map_of_mem (f := JoinHop.table) hother

/-- What is known of the columns that a fold reads, once its owner is bound. -/
structure FoldQuery.Served (query : FoldQuery) (schema : Schema) (owner : Member) : Prop where
  cte : ∀ select ∈ query.cte.selects, select.Served schema
  join : ∀ select, owner.BoundIn schema select → query.join.table ∈ select.source.tables →
    ∀ e ∈ query.join.conditions, e.ServedBy schema select.source.tables
  columns : ∀ tables, query.join.table ∈ tables →
    ∀ c ∈ query.columns, c.expression.ServedBy schema tables

theorem FoldMade.served {owner : Member} {fold : Group} {query : FoldQuery}
    {supply later : Sql.AliasSupply} (h : FoldMade target owner fold query supply later)
    {ownerTable : Table} (howner : target.schema.tableOf owner.node.typeName = .ok ownerTable) :
    query.Served target.schema owner := by
  obtain ⟨select, hselect, hbound⟩ := h.binds.select
  obtain ⟨traversal, table, first, rest, members, filters, outputs, joined, bound, -, -, hpath,
    hmembers, hfilters, houtputs, rfl, -⟩ := h
  obtain rfl := Option.some.inj hselect
  obtain ⟨bindings, hbindings, -⟩ := exists_bindings_of_bindGroup _ hmembers
  obtain ⟨_, _, hsame, halias, hknown, hinner, hrest⟩ := hpath.exists_known hschema howner
  obtain ⟨rfl, rfl⟩ := List.cons.inj hsame
  have htables := tables_fold first rest members.joins
  have hlink : first.inner.ServedBy target.schema (Sql.FromClause.mk first.table
      (rest.map (JoinHop.join · .inner) ++ members.joins)).tables :=
    hinner _ List.mem_cons_self
  refine ⟨fun select hselect => ?_, fun select hbound htable => ?_, fun tables htable => ?_⟩
  · obtain rfl := List.mem_singleton.1 hselect
    refine ⟨List.forall_mem_cons.2 ⟨hlink, fun item hitem => ?_⟩, fun join hjoin => ?_,
      fun e he column hcolumn => ?_, List.forall_mem_singleton.2 hlink⟩
    · obtain ⟨output, houtput, rfl⟩ := List.mem_map.1 hitem
      intro column hcolumn
      have hcolumn : column ∈ output.2.columns := by
        simpa [Target.foldAggregate, Sql.Expr.columns_aggregate, List.flatMap_map,
          Sql.Expr.columns] using hcolumn
      exact Members.serves_of_hasField hschema hbound
        (Members.hasField_of_mem_outputs houtputs houtput column hcolumn)
    · rcases List.mem_append.1 hjoin with hjoin | hjoin
      · obtain ⟨hop, hhop, rfl⟩ := List.mem_map.1 hjoin
        refine List.forall_mem_singleton.2 ((hrest hop hhop).mono ?_)
        rw [htables]
        exact List.subset_append_left _ _
      · refine hbindings.servedBy hschema hbound ?_ join hjoin
        rw [htables]
        exact List.subset_append_right _ _
    · exact Members.serves_of_hasField hschema hbound
        (Members.hasField_of_mem_filters hfilters he column hcolumn)
  · obtain ⟨found, hfound, hmem⟩ := hbound
    obtain rfl := Except.ok.inj (howner.symm.trans hfound)
    refine List.forall_mem_singleton.2 (Sql.Expr.servedBy_equals ?_ ?_)
    · exact Sql.Expr.servedBy_stored hknown (halias ▸ hmem)
    · exact Sql.Expr.servedBy_cte htable _
  · intro c hc
    obtain ⟨output, -, rfl⟩ := List.mem_map.1 hc
    exact Sql.Expr.servedBy_cte htable _

/-- An emission reads columns that are served. -/
structure ScopeEmission.Served (emission : ScopeEmission) (schema : Schema) : Prop where
  ctes : ∀ cte ∈ emission.ctes, ∀ select ∈ cte.selects, select.Served schema
  query : emission.query.select.Served schema

/-- A scope that is fed by a recursive table starts from there by the key of its top vertex. -/
theorem servedBy_of_scopeSource {entry : Option RecursionEntry} {typeName : String} {table : Table}
    (htable : target.schema.tableOf typeName = .ok table) {aliasName : String}
    {start : Sql.FromClause} (h : scopeSource entry table aliasName = .ok start) :
    ∀ join ∈ start.joins, ∀ e ∈ join.conditions, e.ServedBy target.schema start.tables := by
  cases entry with
  | none =>
      obtain rfl := Except.ok.inj h
      exact fun join hjoin => absurd hjoin List.not_mem_nil
  | some entry =>
      obtain ⟨key, hkey, h⟩ := bind_eq_ok_iff.1 h
      obtain rfl := pure_eq_ok_iff.1 h
      have hknows := hschema.knows_of_keyColumn htable (Emit.ofSchema_eq_ok_iff.1 hkey)
      refine List.forall_mem_singleton.2 (List.forall_mem_singleton.2 ?_)
      refine Sql.Expr.servedBy_equals (Sql.Expr.servedBy_stored hknows ?_)
        (Sql.Expr.servedBy_cte List.mem_cons_self _)
      exact List.mem_cons_of_mem _ List.mem_cons_self

theorem BaseMade.served {entry : Option RecursionEntry} {group : Group} {folds : List Group}
    {members : Members} {emission : ScopeEmission} {supply later : Sql.AliasSupply}
    (h : BaseMade target entry group folds members emission supply later) :
    emission.Served target.schema := by
  have hbound := h.boundIn_select
  obtain ⟨table, start, outputs, folded, filters, bound, htable, hstart, hmembers, houtputs,
    hfolded, hfilters, rfl⟩ := h
  obtain ⟨bindings, hbindings, -⟩ := exists_bindings_of_bindGroup _ hmembers
  have htables := tables_baseEmission entry start members outputs folded filters
  have hjoined : ∀ query ∈ folded, query.join.table ∈
      (baseEmission entry start members outputs folded filters).query.source.tables := by
    intro query hquery
    rw [htables]
    exact List.mem_append_right _ (List.mem_map_of_mem hquery)
  have hfolds : ∀ query ∈ folded, ∃ owner ∈ members.bound, query.Served target.schema owner := by
    intro query hquery
    obtain ⟨fold, -, _, _, owner, howner, hmade⟩ := hfolded.exists_of_mem hquery
    have howner := Members.mem_bound_of_owner howner
    obtain ⟨ownerTable, hownerTable, -⟩ := hbound owner howner
    exact ⟨owner, howner, hmade.served hschema hownerTable⟩
  refine ⟨fun cte hcte => ?_, fun item hitem => ?_, fun join hjoin => ?_,
    fun e he column hcolumn => ?_, fun e he => absurd he List.not_mem_nil⟩
  · obtain ⟨query, hquery, rfl⟩ := List.mem_map.1 hcte
    obtain ⟨owner, -, hserved⟩ := hfolds query hquery
    exact hserved.cte
  · obtain ⟨c, hc, rfl⟩ := List.mem_map.1 hitem
    rcases mem_columns_baseEmission_iff.1 hc with hc | ⟨output, houtput, rfl⟩ | ⟨query, hquery, hc⟩
    · cases entry with
      | none => exact absurd hc List.not_mem_nil
      | some entry =>
          obtain rfl := List.mem_singleton.1 hc
          refine Sql.Expr.servedBy_cte ?_ _
          rw [ScopeQuery.select, htables, tables_of_scopeSource hstart]
          exact List.mem_cons_self
    · exact fun column hcolumn => Members.serves_of_hasField hschema hbound
        (Members.hasField_of_mem_outputs houtputs houtput column hcolumn)
    · obtain ⟨owner, -, hserved⟩ := hfolds query hquery
      exact hserved.columns _ (hjoined query hquery) c hc
  · change join ∈ (baseEmission entry start members outputs folded filters).query.source.joins
      at hjoin
    rcases mem_joins_baseEmission_iff.1 hjoin with hjoin | hjoin | ⟨query, hquery, rfl⟩
    · intro e he
      refine (servedBy_of_scopeSource hschema htable hstart join hjoin e he).mono ?_
      rw [ScopeQuery.select, htables, List.append_assoc]
      exact List.subset_append_left _ _
    · refine hbindings.servedBy hschema hbound ?_ join hjoin
      rw [ScopeQuery.select, htables]
      exact List.subset_append_of_subset_left _ (List.subset_append_right _ _)
    · obtain ⟨owner, howner, hserved⟩ := hfolds query hquery
      exact hserved.join _ (hbound owner howner) (hjoined query hquery)
  · exact Members.serves_of_hasField hschema hbound
      (Members.hasField_of_mem_filters hfilters he column hcolumn)

/-- The keys that the owners of recursions expose are served where the owners are bound. -/
theorem servedBy_of_linksMade {members : Members} {recursions : List Scope}
    {links : List ScopeColumn} {supply later : Sql.AliasSupply}
    (h : Steps (LinkMade target members) recursions links supply later) {select : Sql.Select}
    (hbound : ∀ m ∈ members.bound, m.BoundIn target.schema select) :
    ∀ c ∈ links, c.expression.ServedBy target.schema select.source.tables := by
  intro c hc
  obtain ⟨recursion, -, _, _, owner, table, key, howner, -, htable, hkey, rfl, -⟩ :=
    h.exists_of_mem hc
  obtain ⟨found, hfound, hmem⟩ := hbound owner (Members.mem_bound_of_owner howner)
  obtain rfl := Except.ok.inj (htable.symm.trans hfound)
  exact Sql.Expr.servedBy_stored (hschema.knows_of_keyColumn htable hkey) hmem

/-- A step joins tables by columns that are served, and ends at a known key of a table. -/
theorem Recursion.StepMade.exists_served {recursion : Recursion} {step : Sql.Select}
    {supply later : Sql.AliasSupply} (h : recursion.StepMade target step supply later) :
    ∃ joins next key, step = recursion.stepSelect joins next key ∧
      (Sql.Expr.column next key).ServedBy target.schema step.source.tables ∧
      ∀ join ∈ joins, ∀ e ∈ join.conditions,
        e.ServedBy target.schema step.source.tables := by
  have hreached : ∀ tables, (recursion.column Sql.reachedColumn).ServedBy target.schema
      (.cte recursion.name none :: tables) := fun tables =>
    Sql.Expr.servedBy_cte List.mem_cons_self _
  cases h with
  | @fromKey table key joined _ _ htable hkey hpath =>
      obtain ⟨found, hfound, hend⟩ := hpath.exists_reference
      obtain rfl := Except.ok.inj (htable.symm.trans hfound)
      obtain ⟨first, rest, rfl, -, -, hinner, hrest⟩ := hpath.exists_known hschema htable
      have htables : (joinsFromKey (recursion.column Sql.reachedColumn) (first :: rest)).map
          Sql.Join.table = (first :: rest).map JoinHop.table := by
        simp [joinsFromKey, JoinHop.join, Function.comp_def]
      refine ⟨_, _, _, rfl, ?_, List.forall_mem_cons.2 ⟨?_, fun join hjoin => ?_⟩⟩
      · refine Sql.Expr.servedBy_stored (hschema.knows_of_keyColumn htable hkey) ?_
        exact List.mem_cons_of_mem _ (htables ▸ hend)
      · refine List.forall_mem_singleton.2 (Sql.Expr.servedBy_equals (hreached _) (hinner _ ?_))
        exact List.mem_cons_of_mem _ List.mem_cons_self
      · obtain ⟨hop, hhop, rfl⟩ := List.mem_map.1 hjoin
        refine List.forall_mem_singleton.2 ((hrest hop hhop).mono fun other hother => ?_)
        exact List.mem_cons_of_mem _ (htables ▸ hother)
  | @fromRow table key joined _ started _ current htable hkey _ hpath =>
      obtain ⟨found, hfound, hend⟩ := hpath.exists_reference
      obtain rfl := Except.ok.inj (htable.symm.trans hfound)
      have hknows := hschema.knows_of_keyColumn htable hkey
      have htables : (joined.map (JoinHop.join · .inner)).map Sql.Join.table =
          joined.map JoinHop.table := by
        simp [JoinHop.join, Function.comp_def]
      have hjoined : joined.map JoinHop.table ⊆ .cte recursion.name none ::
          table.reference current :: (joined.map (JoinHop.join · .inner)).map Sql.Join.table := by
        rw [htables]
        exact List.subset_cons_of_subset _ (List.subset_cons_self _ _)
      refine ⟨_, _, _, rfl, Sql.Expr.servedBy_stored hknows (hjoined hend),
        List.forall_mem_cons.2 ⟨?_, fun join hjoin => ?_⟩⟩
      · refine List.forall_mem_singleton.2 (Sql.Expr.servedBy_equals ?_ (hreached _))
        exact Sql.Expr.servedBy_stored hknows (List.mem_cons_of_mem _ List.mem_cons_self)
      · obtain ⟨hop, hhop, rfl⟩ := List.mem_map.1 hjoin
        refine List.forall_mem_singleton.2 (hpath.servedBy hschema htable ?_ hjoined hop hhop)
        exact List.mem_cons_of_mem _ List.mem_cons_self

/-- A step reads the table to which it belongs and the tables that it joins. -/
theorem Recursion.StepMade.served {recursion : Recursion} {step : Sql.Select}
    {supply later : Sql.AliasSupply} (h : recursion.StepMade target step supply later) :
    step.Served target.schema := by
  obtain ⟨joins, next, key, rfl, hkey, hjoins⟩ := h.exists_served hschema
  have hown : ∀ name, target.schema.Serves (recursion.stepSelect joins next key).source.tables
      (recursion.name, name) := fun name => .inl List.mem_cons_self
  have hkey := hkey (next, key) List.mem_cons_self
  refine ⟨fun item hitem column hcolumn => ?_, hjoins, fun e he column hcolumn => ?_,
    fun e he => absurd he List.not_mem_nil⟩
  · have hread : column ∈ (recursion.stepItems (.column next key)).flatMap
        (fun item => item.expression.columns) := List.mem_flatMap.2 ⟨item, hitem, hcolumn⟩
    rw [columns_stepItems] at hread
    simp only [List.mem_cons, List.not_mem_nil, or_false] at hread
    rcases hread with rfl | rfl | rfl | rfl | rfl
    · exact hown _
    · exact hkey
    · exact hown _
    · exact hown _
    · exact hkey
  · have hread := List.mem_flatMap.2 ⟨e, he, hcolumn⟩
    rw [stepSelect, columns_stepFilters] at hread
    simp only [List.mem_cons, List.not_mem_nil, or_false] at hread
    rcases hread with rfl | rfl | rfl
    · exact hown _
    · exact hown _
    · exact hkey

/-- A recursive table reads columns that are served. -/
theorem TableMade.served {scopeCte link : String} {recursion : Node} {table : Sql.Cte}
    {entry : RecursionEntry} {supply later : Sql.AliasSupply}
    (h : TableMade target scopeCte link recursion table entry supply later) :
    ∀ select ∈ table.selects, select.Served target.schema := by
  obtain ⟨walk, step, combinator, -, hstep, -, rfl, -⟩ := h
  intro select hselect
  rcases List.mem_pair.1 hselect with rfl | rfl
  · exact walk.served_anchor _
  · exact hstep.served hschema

end Emission

/-- The select of a scope may as well expose other columns that its tables serve. -/
theorem ScopeQuery.served_columns {query : ScopeQuery} {schema : Schema}
    (h : query.select.Served schema) {columns : List ScopeColumn}
    (hcolumns : ∀ c ∈ columns, c.expression.ServedBy schema query.source.tables) :
    ({ query with columns } : ScopeQuery).select.Served schema where
  items item hitem := by
    obtain ⟨c, hc, rfl⟩ := List.mem_map.1 hitem
    exact hcolumns c hc
  joins := h.joins
  filters := h.filters
  groups := h.groups

theorem ScopeQuery.servedBy_of_mem_columns {query : ScopeQuery} {schema : Schema}
    (h : query.select.Served schema) {c : ScopeColumn} (hc : c ∈ query.columns) :
    c.expression.ServedBy schema query.source.tables :=
  h.items c.item (List.mem_map_of_mem hc)

/-- A recursion that is attached to a scope reads columns that are served; it is joined by columns
of common table expressions. -/
structure AttachedRecursion.Served (attached : AttachedRecursion) (schema : Schema)
    (scopeCte : String) : Prop where
  ctes : ∀ cte ∈ attached.ctes, ∀ select ∈ cte.selects, select.Served schema
  join : ∀ tables, .cte scopeCte none ∈ tables → attached.join.table ∈ tables →
    ∀ e ∈ attached.join.conditions, e.ServedBy schema tables
  columns : ∀ tables, attached.join.table ∈ tables →
    ∀ c ∈ attached.columns, c.expression.ServedBy schema tables

theorem AttachedMade.served {target : Target} (hschema : target.schema.Checked) {scopeRoot : Node}
    {scopeCte : String} {source : Scope × String} {attached : AttachedRecursion}
    {supply later : Sql.AliasSupply}
    (h : AttachedMade target (fun _ _ emission _ _ => emission.Served target.schema) scopeRoot
      scopeCte source attached supply later) :
    attached.Served target.schema scopeCte := by
  obtain ⟨table, entry, emission, walked, bound, htable, hscope, rfl, -⟩ := h
  refine ⟨fun cte hcte => ?_, fun tables hown hjoined => ?_, fun tables hjoined c hc => ?_⟩
  · rcases mem_ctes_attach_iff.1 hcte with rfl | hcte | rfl
    · exact htable.served hschema
    · exact hscope.ctes cte hcte
    · exact List.forall_mem_singleton.2 hscope.query
  · exact List.forall_mem_singleton.2 (Sql.Expr.servedBy_equals (Sql.Expr.servedBy_cte hown _)
      (Sql.Expr.servedBy_cte hjoined _))
  · obtain ⟨column, -, rfl⟩ := List.mem_map.1 hc
    exact Sql.Expr.servedBy_cte hjoined _

/-- Every emitted scope reads columns that are served. -/
theorem served_of_emitScope {target : Target} (hschema : target.schema.Checked) {scope : Scope}
    {entry : Option RecursionEntry} {emission : ScopeEmission} {supply later : Sql.AliasSupply}
    (h : emitScope target scope entry supply = .ok (emission, later)) :
    emission.Served target.schema := by
  refine emitScope_induction
    (motive := fun _ _ emission _ _ => emission.Served target.schema) ?plain ?wrapped scope h
  case plain =>
    intro group folds entry members base supply later hbase
    exact hbase.served hschema
  case wrapped =>
    intro group folds recursions entry members base links attached supply based linked later _
      hbase hlinks hattached
    have hserved := hbase.served hschema
    have hlinked := servedBy_of_linksMade hschema hlinks hbase.boundIn_select
    have hmade : ∀ recursion ∈ attached,
        recursion.Served target.schema (linked.nextCte .scope).1 := by
      intro recursion hrecursion
      obtain ⟨source, -, _, _, hmade⟩ := hattached.exists_of_mem hrecursion
      exact hmade.served hschema
    have htables : ∀ recursion ∈ attached, recursion.join.table ∈
        (wrappedEmission entry base links (linked.nextCte .scope).1 attached).query.source.tables :=
      fun recursion hrecursion =>
        List.mem_cons_of_mem _ (List.mem_map_of_mem (List.mem_map_of_mem hrecursion))
    refine ⟨fun cte hcte => ?_, fun item hitem => ?_, fun join hjoin => ?_,
      fun e he => absurd he List.not_mem_nil, fun e he => absurd he List.not_mem_nil⟩
    · rcases mem_ctes_wrappedEmission_iff.1 hcte with hcte | rfl | ⟨recursion, hrecursion, hcte⟩
      · exact hserved.ctes cte hcte
      · refine List.forall_mem_singleton.2 (ScopeQuery.served_columns hserved.query ?_)
        exact List.forall_mem_append.2
          ⟨fun c hc => ScopeQuery.servedBy_of_mem_columns hserved.query hc, hlinked⟩
      · exact (hmade recursion hrecursion).ctes cte hcte
    · obtain ⟨c, hc, rfl⟩ := List.mem_map.1 hitem
      rcases mem_columns_wrappedEmission_iff.1 hc with
        ⟨column, -, rfl⟩ | ⟨recursion, hrecursion, hc⟩
      · exact Sql.Expr.servedBy_cte List.mem_cons_self _
      · exact (hmade recursion hrecursion).columns _ (htables recursion hrecursion) c hc
    · obtain ⟨recursion, hrecursion, rfl⟩ := List.mem_map.1 hjoin
      exact (hmade recursion hrecursion).join _ List.mem_cons_self (htables recursion hrecursion)

namespace QueryTree

variable {tree : QueryTree} {target : Target} {statement : Sql.Statement}

/-- Every select of a statement over a schema that passed its checks reads columns that are
served. -/
theorem served_of_statement (hschema : target.schema.Checked)
    (h : tree.statement target = .ok statement) :
    ∀ select ∈ statement.selects, select.Served target.schema := by
  obtain ⟨emission, hemission, hctes, hbody⟩ := exists_of_statement_eq_ok h
  obtain ⟨root, made, later, -, hmade, -, rfl⟩ := exists_of_emission_eq_ok hemission
  have hserved := served_of_emitScope hschema hmade
  intro select hselect
  rw [Sql.Statement.selects, hctes, hbody] at hselect
  rcases List.mem_append.1 hselect with hselect | hselect
  · obtain ⟨cte, hcte, hselect⟩ := List.mem_flatMap.1 hselect
    exact hserved.ctes cte hcte select hselect
  · obtain rfl := List.mem_singleton.1 hselect
    refine ScopeQuery.served_columns hserved.query fun c hc => ?_
    exact ScopeQuery.servedBy_of_mem_columns hserved.query (mem_sortedOutputs_iff.1 hc).1

end QueryTree

/-- A statement reads a column of a stored table: in one of its selects, under the alias that the
table has there. -/
def Sql.Statement.ReadsStored (statement : Sql.Statement) (qualifier : Option String)
    (table column : String) : Prop :=
  ∃ select ∈ statement.selects, ∃ aliasName,
    .table qualifier table aliasName ∈ select.source.tables ∧
      ∃ e ∈ select.expressions, (aliasName, column) ∈ e.columns

namespace Query

variable {query : Query} {target : Target} {statement : Sql.Statement}

/-- What a statement reads from a stored table is known to a schema that passed its checks. -/
theorem exists_knows_of_readsStored (hschema : target.schema.Checked)
    (h : query.compile target = .ok statement) {qualifier : Option String} {name column : String}
    (hread : statement.ReadsStored qualifier name column) :
    ∃ table, target.schema.Knows table column ∧ table.qualifier = qualifier ∧
      table.name = name := by
  obtain ⟨tree, -, hstatement⟩ := QueryTree.exists_of_compile h
  obtain ⟨select, hselect, aliasName, htable, e, he, hcolumn⟩ := hread
  obtain ⟨-, -, -, hdistinct⟩ := QueryTree.inOrder_of_statement hstatement
  have hserved := QueryTree.served_of_statement hschema hstatement select hselect
  -- The alias stands for one table only, so it is the one that serves the column.
  have hsame : ∀ other ∈ select.source.tables, other.aliasName = aliasName →
      other = .table qualifier name aliasName := fun other hother halias =>
    List.inj_on_of_nodup_map (hdistinct select hselect) hother htable halias
  rcases hserved.servedBy e he (aliasName, column) hcolumn with hcte | ⟨table, hknows, hmem⟩
  · exact absurd (hsame _ hcte rfl) (by simp)
  · obtain ⟨hqualifier, hname, -⟩ := Sql.TableRef.table.inj (hsame _ hmem rfl)
    exact ⟨table, hknows, hqualifier, hname⟩

/-- The columns that a statement reads from stored tables.  Over the schema of a declaration without
fault, each table that is read is declared, and so is each column that is read from it, unless a
foreign key names a column that is not there; nothing checks this of foreign keys. -/
theorem declared_or_named_by_key {definition : SchemaDefinition}
    (hschema : definition.toSchema = .ok target.schema) (h : query.compile target = .ok statement) :
    (∀ qualifier name column, statement.ReadsStored qualifier name column →
      ∃ t ∈ definition.tables, t.name = name ∧ t.schema = qualifier ∧
        (column ∈ t.columns ∨ definition.KeyNames name column)) ∧
    ((∀ t ∈ definition.tables, ∀ column, definition.KeyNames t.name column → column ∈ t.columns) →
      ∀ qualifier name column, statement.ReadsStored qualifier name column →
        ∃ t ∈ definition.tables, t.name = name ∧ t.schema = qualifier ∧ column ∈ t.columns) := by
  obtain ⟨hassembled, -⟩ := SchemaDefinition.eq_assemble_of_toSchema hschema
  have hread : ∀ qualifier name column, statement.ReadsStored qualifier name column →
      ∃ t ∈ definition.tables, t.name = name ∧ t.schema = qualifier ∧
        (column ∈ t.columns ∨ definition.KeyNames name column) := by
    intro qualifier name column hread
    obtain ⟨table, hknows, rfl, rfl⟩ := exists_knows_of_readsStored
      (SchemaDefinition.checked_of_toSchema hschema) h hread
    obtain ⟨t, ht, rfl, hcolumn⟩ := SchemaDefinition.exists_of_knows (hassembled ▸ hknows)
    exact ⟨t, ht, rfl, rfl, hcolumn⟩
  refine ⟨hread, fun hkeys qualifier name column hcolumn => ?_⟩
  obtain ⟨t, ht, rfl, rfl, hdeclared | hnamed⟩ := hread qualifier name column hcolumn
  · exact ⟨t, ht, rfl, rfl, hdeclared⟩
  · exact ⟨t, ht, rfl, rfl, hkeys t ht column hnamed⟩

/-- Animals with the key of their owner, in a table of the given columns; no edge is configured. -/
def registry (columns : List String) : SchemaDefinition where
  tables := [⟨"animal", none, columns, ["id"], [⟨"owner_id", "person", "id"⟩]⟩,
    ⟨"person", none, ["id", "name"], ["id"], []⟩]
  vertexTypes := .ofList [("Animal", ⟨some "animal", .empty, .empty⟩),
    ("Person", ⟨some "person", .empty, .empty⟩)]

def registryTarget (columns : List String) : Target where
  dialect := .sqlite
  schema := (registry columns).assemble
  maxRecursionDepth := 10
  combinator := none

/-- Animals with their owners. -/
def owned : Pattern where
  startClass := "Animal"
  vertex := ⟨"Animal", [], [⟨"name", "animal"⟩]⟩
  branches :=
    .branch ⟨⟨"owner", .outward⟩, .mandatory⟩ ⟨"Person", [], [⟨"name", "owner"⟩]⟩ .none .none

def ownerJoin : Sql.Join :=
  ⟨.inner, .table none "person" "person_1",
    [.equals (.column "animal_1" "owner_id") (.column "person_1" "id")]⟩

theorem readsStored_of_ownerJoin {statement : Sql.Statement}
    (h : statement.body.source = ⟨.table none "animal" "animal_1", [ownerJoin]⟩) :
    statement.ReadsStored none "animal" "owner_id" := by
  refine ⟨statement.body, List.mem_append_right _ (List.mem_singleton.2 rfl), "animal_1", ?_,
    .equals (.column "animal_1" "owner_id") (.column "person_1" "id"), ?_, by decide⟩
  · rw [h]
    exact List.mem_cons_self
  · simp [Sql.Select.expressions, h, ownerJoin]

theorem declared_or_named_by_key_registry :
    ∃ statement, (registry ["id", "name", "owner_id"]).toSchema =
        .ok (registryTarget ["id", "name", "owner_id"]).schema ∧
      (ofPattern owned).compile (registryTarget ["id", "name", "owner_id"]) = .ok statement ∧
      statement.ReadsStored none "animal" "owner_id" ∧
      ∀ qualifier name column, statement.ReadsStored qualifier name column →
        ∃ t ∈ (registry ["id", "name", "owner_id"]).tables,
          t.name = name ∧ t.schema = qualifier ∧ column ∈ t.columns := by
  have hsource : ((ofPattern owned).compile (registryTarget ["id", "name", "owner_id"])).map
      (fun statement => statement.body.source) =
        .ok ⟨.table none "animal" "animal_1", [ownerJoin]⟩ := by cbv
  obtain ⟨statement, hstatement, hsource⟩ := map_eq_ok_iff.1 hsource
  have hschema : (registry ["id", "name", "owner_id"]).toSchema =
      .ok (registryTarget ["id", "name", "owner_id"]).schema := by cbv
  refine ⟨statement, hschema, hstatement, readsStored_of_ownerJoin hsource,
    (declared_or_named_by_key hschema hstatement).2 ?_⟩
  simp [registry, SchemaDefinition.KeyNames]

/-- Without the column in the table, the statement joins owners by a column that no table has. -/
theorem undeclared_owner_key :
    ∃ statement, (registry ["id", "name"]).toSchema =
        .ok (registryTarget ["id", "name"]).schema ∧
      (ofPattern owned).compile (registryTarget ["id", "name"]) = .ok statement ∧
      statement.ReadsStored none "animal" "owner_id" ∧
      ∀ t ∈ (registry ["id", "name"]).tables, "owner_id" ∉ t.columns := by
  have hsource : ((ofPattern owned).compile (registryTarget ["id", "name"])).map
      (fun statement => statement.body.source) =
        .ok ⟨.table none "animal" "animal_1", [ownerJoin]⟩ := by cbv
  obtain ⟨statement, hstatement, hsource⟩ := map_eq_ok_iff.1 hsource
  exact ⟨statement, by cbv, hstatement, readsStored_of_ownerJoin hsource, by decide⟩

end Query

end TraversalSql
