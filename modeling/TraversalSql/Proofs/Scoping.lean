import TraversalSql.Proofs.ColumnReads

/-!
Scoping of emitted statements.  In every select of a statement the tables have aliases that differ
and each clause reads columns of tables that are in scope there; the common table expressions stand
in the order in which they read each other, and only a recursive step reads its own table.
-/

namespace TraversalSql

open Outcome

section Joins

variable {ctes : List Sql.Cte} {known : List Sql.TableRef}

/-- The condition of a hop reads its outer side and the table that it joins. -/
theorem JoinHop.readsFrom_condition {hop : JoinHop} (houter : hop.outer.ReadsFrom ctes known)
    (hinner : hop.table.storedAlias? = some hop.innerAlias) :
    hop.condition.ReadsFrom ctes (known ++ [hop.table]) := by
  refine Sql.Expr.readsFrom_equals_iff.2 ⟨houter.mono (List.Subset.refl _)
    (List.subset_append_left _ _), Sql.Expr.readsFrom_of_stored ?_ _ _⟩
  exact List.mem_filterMap.2 ⟨hop.table, List.mem_append_right _ (List.mem_singleton.2 rfl), hinner⟩

/-- A path starts with a hop from its outer vertex, and the rest of it goes on from the table that
this hop joins. -/
theorem JoinPath.exists_first {schema : Schema} {outer inner : BoundVertex} {traversal : Traversal}
    {hops : List JoinHop} {supply later : Sql.AliasSupply}
    (h : JoinPath schema outer inner traversal supply hops later) :
    ∃ first rest, hops = first :: rest ∧ first.outerAlias = outer.aliasName ∧
      first.table.storedAlias? = some first.innerAlias ∧
      ∀ ctes known kind, first.table ∈ known →
        Sql.JoinsInOrder ctes known (rest.map (JoinHop.join · kind)) := by
  cases h with
  | direct => exact ⟨_, [], rfl, rfl, rfl, fun _ _ _ _ => trivial⟩
  | junction =>
      refine ⟨_, [_], rfl, rfl, rfl, fun ctes known kind hknown => ⟨?_, trivial⟩⟩
      intro e he
      obtain rfl := List.mem_singleton.1 he
      refine JoinHop.readsFrom_condition (Sql.Expr.readsFrom_of_stored ?_ _ _) rfl
      exact List.mem_filterMap.2 ⟨_, hknown, rfl⟩

/-- The joins of a path from a stored table that is known stand in order. -/
theorem JoinPath.joinsInOrder {schema : Schema} {outer inner : BoundVertex} {traversal : Traversal}
    {hops : List JoinHop} {supply later : Sql.AliasSupply}
    (h : JoinPath schema outer inner traversal supply hops later)
    (houter : outer.aliasName ∈ known.filterMap Sql.TableRef.storedAlias?) (kind : Sql.JoinKind) :
    Sql.JoinsInOrder ctes known (hops.map (JoinHop.join · kind)) := by
  obtain ⟨first, rest, rfl, hfirst, hinner, hrest⟩ := h.exists_first
  refine ⟨fun e he => ?_, hrest ctes _ kind (List.mem_append_right _ (List.mem_singleton.2 rfl))⟩
  obtain rfl := List.mem_singleton.1 he
  exact JoinHop.readsFrom_condition (Sql.Expr.readsFrom_of_stored (hfirst ▸ houter) _ _) hinner

/-- The joins of bindings stand in order, if the vertices that are bound before are known. -/
theorem Bindings.joinsInOrder {target : Target} {tops : List Member} {bindings : List Binding}
    {supply later : Sql.AliasSupply} (h : Bindings target tops bindings supply later)
    (htops : ∀ m ∈ tops, m.aliasName ∈ known.filterMap Sql.TableRef.storedAlias?)
    (scopeRoot : Node) :
    Sql.JoinsInOrder ctes known (bindings.flatMap (Binding.joins scopeRoot)) := by
  induction h generalizing known with
  | nil => trivial
  | @cons tops binding rest _ _ _ hparent hmade _ ih =>
      obtain ⟨traversal, table, -, -, -, hpath⟩ := id hmade
      rw [List.flatMap_cons, Sql.JoinsInOrder.append_iff]
      refine ⟨hpath.joinsInOrder (htops _ hparent) _, ih fun m hm => ?_⟩
      rw [List.filterMap_append, (hmade.storedAs_joins scopeRoot).filterMap_storedAlias?,
        List.mem_append]
      rcases List.mem_cons.1 hm with rfl | hm
      · exact .inr hmade.child_mem_aliases
      · exact .inl (htops m hm)

end Joins

section Conditions

/-- A comparison reads what its column and its values read. -/
theorem FilterOperator.columns_subset_of_comparison? {operator : FilterOperator}
    {column comparison : Sql.Expr} {values : List Sql.Expr}
    (h : operator.comparison? column values = some comparison) :
    comparison.columns ⊆ column.columns ++ values.flatMap Sql.Expr.columns := by
  have happly : ∀ op, (Sql.Expr.apply op (column :: values)).columns ⊆
      column.columns ++ values.flatMap Sql.Expr.columns := fun op => by
    rw [Sql.Expr.columns_apply, List.flatMap_cons]
    exact List.Subset.refl _
  unfold comparison? at h
  split at h
  · obtain rfl := Option.some.inj h
    exact happly _
  · obtain rfl := Option.some.inj h
    exact happly _
  · next leading trailing value _ =>
    obtain rfl := Option.some.inj h
    have hwildcard : ∀ present : Bool,
        (if present then [Sql.Expr.string "%"] else []).flatMap Sql.Expr.columns = [] := by
      intro present
      cases present <;> rfl
    simp [Sql.Expr.columns_apply, Sql.Expr.columns_concat, hwildcard]
  · obtain rfl := Option.some.inj h
    exact happly _
  · exact absurd h (by simp)

/-- A guarded comparison reads what its guards and the comparison read. -/
theorem columns_guarded_subset (guards : List Sql.Expr) (comparison : Sql.Expr) :
    (guarded guards comparison).columns ⊆
      guards.flatMap Sql.Expr.columns ++ comparison.columns := by
  unfold guarded
  split
  · exact List.subset_append_right _ _
  · simp [Sql.Expr.columns_apply]

theorem Operand.columns_guards_subset (operand : Operand) :
    operand.guards.flatMap Sql.Expr.columns ⊆ operand.column.columns := by
  unfold Operand.guards
  split
  · simp [Sql.Expr.isNull, Sql.Expr.columns_apply]
  · exact List.nil_subset _

namespace Members

variable {members : Members} {schema : Schema} {scopeRoot : Node}

/-- A column is that of a field of a member. -/
def HasField (members : Members) (schema : Schema) (column : String × String) : Prop :=
  ∃ m ∈ members.bound, ∃ field name, schema.columnOf m.node.typeName field = .ok name ∧
    column = (m.aliasName, name)

theorem Tagged.hasField {p : NodePredicate} {tag : Option Operand}
    (h : members.Tagged schema scopeRoot p tag) :
    ∀ operand ∈ tag, ∀ column ∈ operand.column.columns, members.HasField schema column := by
  intro operand hoperand column hcolumn
  rcases h with ⟨ref, id, tagged, name, -, -, hfind, hname, rfl⟩ | ⟨-, rfl⟩
  · obtain rfl := Option.some.inj hoperand
    obtain rfl := List.mem_singleton.1 hcolumn
    exact ⟨tagged, List.mem_of_find?_eq_some hfind, ref.field, name, hname, rfl⟩
  · exact absurd hoperand (by simp)

/-- The conditions that members contribute read fields of members. -/
theorem hasField_of_mem_filters {filters : List Sql.Expr}
    (h : members.filters schema scopeRoot = .ok filters) {condition : Sql.Expr}
    (hcondition : condition ∈ filters) :
    ∀ column ∈ condition.columns, members.HasField schema column := by
  obtain ⟨source, hsource, hfilter⟩ := exists_source h hcondition
  obtain ⟨m, hm, hp⟩ := List.mem_flatMap.1 hsource
  obtain ⟨p, -, rfl⟩ := List.mem_map.1 hp
  obtain ⟨name, tag, comparison, hname, htag, -, hcomparison, rfl⟩ := exists_of_filter_eq_ok hfilter
  have hown : ∀ column ∈ (Sql.Expr.column m.aliasName name).columns,
      members.HasField schema column := by
    intro column hcolumn
    obtain rfl := List.mem_singleton.1 hcolumn
    exact ⟨m, hm, _, name, hname, rfl⟩
  intro column hcolumn
  rcases List.mem_append.1 (columns_guarded_subset _ _ hcolumn) with hguard | hcompared
  · rw [Operand.guardsOf, List.flatMap_append, List.mem_append] at hguard
    rcases hguard with hguard | hguard
    · exact hown column (Operand.columns_guards_subset _ hguard)
    · cases tag with
      | none => exact absurd hguard List.not_mem_nil
      | some operand =>
          exact htag.hasField operand rfl column (Operand.columns_guards_subset _ hguard)
  · rcases List.mem_append.1
      (FilterOperator.columns_subset_of_comparison? hcomparison hcompared) with hcompared | hvalue
    · exact hown column hcompared
    · obtain ⟨value, hvalue, hcolumn⟩ := List.mem_flatMap.1 hvalue
      rcases List.mem_append.1 hvalue with hvalue | hvalue
      · obtain ⟨operand, hoperand, rfl⟩ := Option.map_eq_some_iff.1 (Option.mem_toList.1 hvalue)
        exact htag.hasField operand hoperand column hcolumn
      · obtain ⟨parameter, -, rfl⟩ := List.mem_map.1 hvalue
        exact absurd hcolumn List.not_mem_nil

/-- The columns that members give out are those of fields of members. -/
theorem hasField_of_mem_outputs {outputs : List (NodeOutput × Sql.Expr)}
    (h : members.outputs schema = .ok outputs) {output : NodeOutput × Sql.Expr}
    (houtput : output ∈ outputs) : ∀ column ∈ output.2.columns, members.HasField schema column := by
  obtain ⟨m, hm, -, name, hname, hexpression⟩ := exists_of_mem_outputs h houtput
  intro column hcolumn
  rw [hexpression] at hcolumn
  exact ⟨m, hm, _, name, hname, List.mem_singleton.1 hcolumn⟩

section Reads

variable {ctes : List Sql.Cte} {tables : List Sql.TableRef}
  (hbound : ∀ m ∈ members.bound, m.aliasName ∈ tables.filterMap Sql.TableRef.storedAlias?)
include hbound

theorem readsFrom_of_hasField {e : Sql.Expr}
    (h : ∀ column ∈ e.columns, members.HasField schema column) : e.ReadsFrom ctes tables := by
  intro column hcolumn
  obtain ⟨m, hm, field, name, -, rfl⟩ := h column hcolumn
  exact Sql.Expr.readsFrom_column_iff.1 (Sql.Expr.readsFrom_of_stored (hbound m hm) ctes name)

/-- The conditions that members contribute read the tables of members. -/
theorem readsFrom_filters {filters : List Sql.Expr}
    (h : members.filters schema scopeRoot = .ok filters) :
    ∀ e ∈ filters, e.ReadsFrom ctes tables := fun _ he =>
  readsFrom_of_hasField hbound (hasField_of_mem_filters h he)

/-- The columns that members give out are read from the tables of members. -/
theorem readsFrom_outputs {outputs : List (NodeOutput × Sql.Expr)}
    (h : members.outputs schema = .ok outputs) :
    ∀ output ∈ outputs, output.2.ReadsFrom ctes tables := fun _ houtput =>
  readsFrom_of_hasField hbound (hasField_of_mem_outputs h houtput)

end Reads

theorem owner_eq_ok_iff {node : Node} {owner : Member} :
    members.owner node = .ok owner ↔ node.parent.bind members.find? = some owner := by
  unfold Members.owner
  cases node.parent.bind members.find? <;> simp

theorem mem_bound_of_owner {node : Node} {owner : Member} (h : members.owner node = .ok owner) :
    owner ∈ members.bound := by
  obtain ⟨id, -, hfind⟩ := Option.bind_eq_some_iff.1 (owner_eq_ok_iff.1 h)
  exact List.mem_of_find?_eq_some hfind

end Members

end Conditions

/-- What is known of the columns that a fold reads and gives out, once its table is there. -/
structure FoldQuery.Scoped (query : FoldQuery) (owner : Member) : Prop where
  cte : ∀ known, query.cte.InOrder known
  join : ∀ ctes tables, query.cte ∈ ctes →
    owner.aliasName ∈ tables.filterMap Sql.TableRef.storedAlias? →
    ∀ e ∈ query.join.conditions, e.ReadsFrom ctes (tables ++ [query.join.table])
  columns : ∀ ctes tables, query.cte ∈ ctes → query.join.table ∈ tables →
    ∀ c ∈ query.columns, c.expression.ReadsFrom ctes tables

/-- The select of a fold reads its own tables, and the fold is joined by the columns it projects. -/
theorem FoldMade.scoped {target : Target} {owner : Member} {fold : Group} {query : FoldQuery}
    {supply later : Sql.AliasSupply} (h : FoldMade target owner fold query supply later) :
    query.Scoped owner := by
  obtain ⟨select, hselect, hbound⟩ := h.binds.select
  obtain ⟨traversal, table, first, rest, members, filters, outputs, joined, bound, -, -, hpath,
    hmembers, hfilters, houtputs, rfl, -⟩ := h
  obtain rfl := Option.some.inj hselect
  obtain ⟨bindings, hbindings, -⟩ := exists_bindings_of_bindGroup _ hmembers
  obtain ⟨_, _, hsame, houter, hinner, hrest⟩ := hpath.exists_first
  obtain ⟨rfl, rfl⟩ := List.cons.inj hsame
  have hstored := hpath.storedAs.append (hbindings.made.storedAs_joins fold.node)
  rw [← hbindings.joins, ← tables_fold] at hstored
  have haliases : ∀ m ∈ members.bound, m.aliasName ∈ _ := fun m hm =>
    (hbound m hm).mem_storedAliases
  have hlink : first.inner.ReadsFrom [] (Sql.FromClause.mk first.table
      (rest.map (JoinHop.join · .inner) ++ members.joins)).tables :=
    Sql.Expr.readsFrom_of_stored (List.mem_filterMap.2 ⟨_, List.mem_cons_self, hinner⟩) _ _
  refine ⟨fun known => ⟨rfl, ?_⟩, ?_, ?_⟩
  · suffices h : Sql.Select.ScopedIn _ [] from h.mono (List.nil_subset _)
    refine ⟨hstored.among [], ?_, ?_, Members.readsFrom_filters haliases hfilters, ?_⟩
    · refine Sql.JoinsInOrder.append_iff.2 ⟨hrest _ _ _ List.mem_cons_self, ?_⟩
      rw [hbindings.joins]
      apply hbindings.made.joinsInOrder
      intro m hm
      obtain rfl := List.mem_singleton.1 hm
      -- The top vertex of the fold is where the path ends.
      obtain ⟨passed, hpassed, -⟩ := hpath.takes
      have htables : [first.table] ++ (rest.map (JoinHop.join · .inner)).map Sql.Join.table =
          (first :: rest).map JoinHop.table := by
        simp [JoinHop.join, Function.comp_def]
      rw [htables, hpath.storedAs.filterMap_storedAlias?, hpassed]
      exact List.mem_append_right _ (List.mem_singleton.2 rfl)
    · refine List.forall_mem_cons.2 ⟨hlink, fun item hitem => ?_⟩
      obtain ⟨⟨output, column⟩, hmem, rfl⟩ := List.mem_map.1 hitem
      refine Sql.Expr.readsFrom_aggregate_iff.2 (List.forall_mem_cons.2 ⟨?_, fun e he => ?_⟩)
      · exact Members.readsFrom_outputs haliases houtputs _ hmem
      · obtain ⟨text, -, rfl⟩ := List.mem_map.1 he
        exact .of_columns_eq_nil rfl
    · intro e he
      obtain rfl := List.mem_singleton.1 he
      exact hlink
  · intro ctes tables hcte howner e he
    obtain rfl := List.mem_singleton.1 he
    refine Sql.Expr.readsFrom_equals_iff.2 ⟨?_, ?_⟩
    · refine Sql.Expr.ReadsFrom.mono ?_ (List.Subset.refl _) (List.subset_append_left _ _)
      exact Sql.Expr.readsFrom_of_stored (houter ▸ howner) _ _
    · refine Sql.Expr.readsFrom_of_projects hcte
        (List.mem_append_right _ (List.mem_singleton.2 rfl)) ?_
      intro select hselect
      obtain rfl := List.mem_singleton.1 hselect
      exact List.mem_cons_self
  · intro ctes tables hcte htable c hc
    obtain ⟨⟨output, column⟩, hmem, rfl⟩ := List.mem_map.1 hc
    refine Sql.Expr.readsFrom_of_projects hcte htable ?_
    intro select hselect
    obtain rfl := List.mem_singleton.1 hselect
    exact List.mem_cons_of_mem _ (List.mem_map_of_mem (List.mem_map_of_mem hmem))

namespace Recursion

variable {recursion : Recursion} {target : Target} {supply later : Sql.AliasSupply}

/-- A step joins stored tables in order, the last of which is that of the next key. -/
theorem StepMade.exists_joins {select : Sql.Select}
    (h : recursion.StepMade target select supply later) :
    ∃ joins next key, select = recursion.stepSelect joins next key ∧
      next ∈ (joins.map Sql.Join.table).filterMap Sql.TableRef.storedAlias? ∧
      (∀ known, ∀ join ∈ joins, join.table.Among known) ∧
      ∀ ctes, (recursion.column Sql.reachedColumn).ReadsFrom ctes [.cte recursion.name none] →
        Sql.JoinsInOrder ctes [.cte recursion.name none] joins := by
  cases h with
  | @fromKey table key joined _ _ _ _ hpath =>
      obtain ⟨passed, hpassed, -⟩ := hpath.takes
      have hstored := hpath.storedAs
      obtain ⟨first, rest, rfl, -, hinner, hrest⟩ := hpath.exists_first
      have htables : (joinsFromKey (recursion.column Sql.reachedColumn) (first :: rest)).map
          Sql.Join.table = (first :: rest).map JoinHop.table := by
        simp [joinsFromKey, JoinHop.join, Function.comp_def]
      refine ⟨_, _, _, rfl, ?_, ?_, fun ctes hreached => ⟨fun e he => ?_, ?_⟩⟩
      · rw [htables, hstored.filterMap_storedAlias?, hpassed]
        exact List.mem_append_right _ (List.mem_singleton.2 rfl)
      · intro known join hjoin
        exact hstored.among known _ (htables ▸ List.mem_map_of_mem hjoin)
      · obtain rfl := List.mem_singleton.1 he
        refine Sql.Expr.readsFrom_equals_iff.2 ⟨hreached.mono (List.Subset.refl _)
          (List.subset_append_left _ _), Sql.Expr.readsFrom_of_stored ?_ _ _⟩
        exact List.mem_filterMap.2
          ⟨first.table, List.mem_append_right _ (List.mem_singleton.2 rfl), hinner⟩
      · exact hrest _ _ _ (List.mem_append_right _ (List.mem_singleton.2 rfl))
  | @fromRow table key joined _ started _ current _ _ _ hpath =>
      obtain ⟨passed, hpassed, -⟩ := hpath.takes
      have hstored := hpath.storedAs.cons_reference table current
      have htables : ((⟨.inner, table.reference current,
          [.equals (.column current key) (recursion.column Sql.reachedColumn)]⟩ : Sql.Join) ::
            joined.map (JoinHop.join · .inner)).map Sql.Join.table =
              table.reference current :: joined.map JoinHop.table := by
        simp [JoinHop.join, Function.comp_def]
      have hcurrent : current ∈
          ([Sql.TableRef.cte recursion.name none] ++ [table.reference current]).filterMap
            Sql.TableRef.storedAlias? :=
        List.mem_filterMap.2 ⟨_, List.mem_append_right _ (List.mem_singleton.2 rfl), rfl⟩
      refine ⟨_, _, _, rfl, ?_, ?_, fun ctes hreached => ⟨fun e he => ?_, ?_⟩⟩
      · rw [htables, hstored.filterMap_storedAlias?, hpassed]
        exact List.mem_cons_of_mem _ (List.mem_append_right _ (List.mem_singleton.2 rfl))
      · intro known join hjoin
        exact hstored.among known _ (htables ▸ List.mem_map_of_mem hjoin)
      · obtain rfl := List.mem_singleton.1 he
        exact Sql.Expr.readsFrom_equals_iff.2 ⟨Sql.Expr.readsFrom_of_stored hcurrent _ _,
          hreached.mono (List.Subset.refl _) (List.subset_append_left _ _)⟩
      · exact hpath.joinsInOrder hcurrent _

/-- The columns of a recursive table. -/
def tableColumns : List String :=
  [Sql.anchorColumn, Sql.reachedColumn, Sql.depthColumn, Sql.pathColumn]

/-- The anchor and every step of a recursive table have the same columns. -/
theorem projects_of_mem_tableColumns (recursion : Recursion) (joins : List Sql.Join)
    (next key : String) (combinator : Sql.Combinator) :
    ∀ name ∈ tableColumns, Sql.Cte.Projects ⟨recursion.name,
      .recursive recursion.anchor (recursion.stepSelect joins next key) combinator, true⟩ name := by
  intro name hname select hselect
  rcases List.mem_pair.1 hselect with rfl | rfl
  · exact List.mem_map_of_mem (f := some) hname
  · exact List.mem_map_of_mem (f := some) hname

/-- The anchor reads the key column that it is fed from. -/
theorem scopedIn_anchor (recursion : Recursion) {known : List Sql.Cte}
    (hsource : ∃ cte ∈ known, cte.name = recursion.source ∧ cte.Projects recursion.link) :
    recursion.anchor.ScopedIn known := by
  obtain ⟨cte, hcte, hname, hprojects⟩ := hsource
  have hkey : recursion.startKey.ReadsFrom known recursion.anchor.source.tables :=
    Sql.Expr.readsFrom_column_iff.2 ⟨_, List.mem_cons_self, rfl, cte, hcte, hname, hprojects⟩
  refine ⟨?_, trivial, ?_, ?_, by simp [anchor]⟩
  · intro table htable
    obtain rfl := List.mem_singleton.1 htable
    exact ⟨rfl, cte, hcte, hname⟩
  · simp only [anchor, List.forall_mem_cons, Sql.Expr.readsFrom_castToPath_iff,
      Sql.Expr.readsFrom_concat_iff, Sql.Expr.readsFrom_castToText_iff]
    exact ⟨hkey, hkey, Sql.Expr.readsFrom_literal _,
      ⟨Sql.Expr.readsFrom_string _, hkey, Sql.Expr.readsFrom_string _, by simp⟩, by simp⟩
  · intro e he
    obtain rfl := List.mem_singleton.1 he
    exact Sql.Expr.readsFrom_apply_iff.2 (by simpa using hkey)

/-- A step reads the table to which it belongs and the stored tables that it joins. -/
theorem StepMade.scopedIn {step : Sql.Select} (h : recursion.StepMade target step supply later)
    (combinator : Sql.Combinator) (known : List Sql.Cte) :
    step.ScopedIn
      (known ++ [⟨recursion.name, .recursive recursion.anchor step combinator, true⟩]) := by
  obtain ⟨joins, next, key, rfl, hnext, hstored, hjoins⟩ := h.exists_joins
  generalize hctes : known ++ [⟨recursion.name, .recursive recursion.anchor
    (recursion.stepSelect joins next key) combinator, true⟩] = ctes
  have hself : ∀ tables, Sql.TableRef.cte recursion.name none ∈ tables →
      ∀ name ∈ tableColumns, (recursion.column name).ReadsFrom ctes tables := by
    intro tables htable name hname
    have hprojects := projects_of_mem_tableColumns recursion joins next key combinator name hname
    refine Sql.Expr.readsFrom_column_iff.2 ⟨_, htable, rfl, _, ?_, rfl, hprojects⟩
    rw [← hctes]
    exact List.mem_append_right _ (List.mem_singleton.2 rfl)
  have hown := hself _ (List.mem_cons_self (l := joins.map Sql.Join.table))
  have hkey : (Sql.Expr.column next key).ReadsFrom ctes
      (.cte recursion.name none :: joins.map Sql.Join.table) := by
    apply Sql.Expr.readsFrom_of_stored
    rw [List.filterMap_cons]
    exact hnext
  refine ⟨?_, ?_, ?_, ?_, by simp [stepSelect]⟩
  · refine List.forall_mem_cons.2 ⟨⟨rfl, ?_⟩, fun table htable => ?_⟩
    · rw [← hctes]
      exact ⟨_, List.mem_append_right _ (List.mem_singleton.2 rfl), rfl⟩
    · obtain ⟨join, hjoin, rfl⟩ := List.mem_map.1 htable
      exact hstored _ join hjoin
  · exact hjoins ctes (hself _ List.mem_cons_self _ (by simp [tableColumns]))
  · simp only [stepSelect, stepItems, List.forall_mem_cons, Sql.Expr.readsFrom_apply_iff,
      Sql.Expr.readsFrom_concat_iff, Sql.Expr.readsFrom_castToText_iff]
    exact ⟨hown _ (by simp [tableColumns]), hkey,
      ⟨hown _ (by simp [tableColumns]), Sql.Expr.readsFrom_literal _, by simp⟩,
      ⟨hown _ (by simp [tableColumns]), hkey, Sql.Expr.readsFrom_string _, by simp⟩, by simp⟩
  · simp only [stepSelect, stepFilters, List.forall_mem_cons, Sql.Expr.readsFrom_apply_iff,
      Sql.Expr.readsFrom_concat_iff, Sql.Expr.readsFrom_castToText_iff]
    exact ⟨⟨hown _ (by simp [tableColumns]), Sql.Expr.readsFrom_literal _, by simp⟩,
      ⟨hown _ (by simp [tableColumns]),
        ⟨Sql.Expr.readsFrom_string _, hkey, Sql.Expr.readsFrom_string _, by simp⟩, by simp⟩,
      by simp⟩

end Recursion

/-- The recursive table that feeds a scope is known, with the columns that the scope reads. -/
def RecursionEntry.FedBy (entry : RecursionEntry) (known : List Sql.Cte) : Prop :=
  ∃ cte ∈ known, cte.name = entry.table ∧
    cte.Projects Sql.anchorColumn ∧ cte.Projects Sql.reachedColumn

/-- A recursive table stands in order after the scope from which it is fed. -/
theorem TableMade.inOrder {target : Target} {scopeCte link : String} {recursion : Node}
    {table : Sql.Cte} {entry : RecursionEntry} {supply later : Sql.AliasSupply}
    (h : TableMade target scopeCte link recursion table entry supply later) {known : List Sql.Cte}
    (hscope : ∃ cte ∈ known, cte.name = scopeCte ∧ cte.Projects link) :
    table.InOrder known ∧ entry.link = link ∧ entry.FedBy (known ++ [table]) := by
  obtain ⟨walk, step, combinator, hwalk, hstep, -, rfl, rfl⟩ := h
  obtain ⟨hname, rfl, rfl⟩ := Recursion.name_of_ofRelation hwalk
  have hscoped := hstep.scopedIn combinator known
  obtain ⟨joins, next, key, rfl, -, hstored, -⟩ := hstep.exists_joins
  have hprojects := walk.projects_of_mem_tableColumns joins next key combinator
  refine ⟨⟨rfl, walk.scopedIn_anchor hscope, hscoped, rfl, hstored known⟩, rfl, _,
    List.mem_append_right _ (List.mem_singleton.2 rfl), hname,
    hprojects _ (by simp [Recursion.tableColumns]), hprojects _ (by simp [Recursion.tableColumns])⟩

/-- The select of a scope may as well expose other columns that it can read. -/
theorem ScopeQuery.scopedIn_columns {query : ScopeQuery} {ctes : List Sql.Cte}
    (h : query.select.ScopedIn ctes) {columns : List ScopeColumn}
    (hcolumns : ∀ c ∈ columns, c.expression.ReadsFrom ctes query.source.tables) :
    ({ query with columns } : ScopeQuery).select.ScopedIn ctes where
  tables := h.tables
  joins := h.joins
  filters := h.filters
  groups := h.groups
  items item hitem := by
    obtain ⟨c, hc, rfl⟩ := List.mem_map.1 hitem
    exact hcolumns c hc

theorem ScopeQuery.readsFrom_of_mem_columns {query : ScopeQuery} {ctes : List Sql.Cte}
    (h : query.select.ScopedIn ctes) {c : ScopeColumn} (hc : c ∈ query.columns) :
    c.expression.ReadsFrom ctes query.source.tables :=
  h.items c.item (List.mem_map_of_mem hc)

theorem ScopeQuery.projects_ofSelect {query : ScopeQuery} {column : String}
    (h : column ∈ query.columns.map ScopeColumn.aliasName) (name : String) :
    (Sql.Cte.ofSelect name query.select).Projects column := by
  intro select hselect
  obtain rfl := List.mem_singleton.1 hselect
  obtain ⟨c, hc, rfl⟩ := List.mem_map.1 h
  exact List.mem_map.2 ⟨c.item, List.mem_map_of_mem hc, rfl⟩

/-- An emission reads what is in scope where some common table expressions are known, and exposes
the column that links it to the scope above. -/
structure ScopeEmission.ScopedIn (emission : ScopeEmission) (entry : Option RecursionEntry)
    (known : List Sql.Cte) : Prop where
  ctes : Sql.CtesInOrder known emission.ctes
  query : emission.query.select.ScopedIn (known ++ emission.ctes)
  link : ∀ e ∈ entry, e.link ∈ emission.query.columns.map ScopeColumn.aliasName

/-- A scope starts from the table of its top vertex, or from the recursive table that feeds it. -/
theorem joinsInOrder_of_scopeSource {entry : Option RecursionEntry} {table : Table}
    {aliasName : String} {start : Sql.FromClause}
    (h : scopeSource entry table aliasName = .ok start) {ctes : List Sql.Cte}
    (hentry : ∀ e ∈ entry, e.FedBy ctes) :
    Sql.JoinsInOrder ctes [start.base] start.joins := by
  cases entry with
  | none =>
      obtain rfl := Except.ok.inj h
      trivial
  | some entry =>
      obtain ⟨key, -, h⟩ := bind_eq_ok_iff.1 h
      obtain rfl := pure_eq_ok_iff.1 h
      obtain ⟨cte, hcte, hname, -, hreached⟩ := hentry entry rfl
      refine ⟨fun e he => ?_, trivial⟩
      obtain rfl := List.mem_singleton.1 he
      refine Sql.Expr.readsFrom_equals_iff.2 ⟨Sql.Expr.readsFrom_of_stored ?_ _ _,
        Sql.Expr.readsFrom_column_iff.2 ⟨_, List.mem_cons_self, rfl, cte, hcte, hname, hreached⟩⟩
      exact List.mem_filterMap.2 ⟨_, List.mem_append_right _ (List.mem_singleton.2 rfl), rfl⟩

/-- The joins of a scope without its recursions stand in order: those that lead to its start, those
of its vertices, and those of its folds. -/
theorem BaseMade.joinsInOrder {target : Target} {entry : Option RecursionEntry} {group : Group}
    {folds : List Group} {members : Members} {emission : ScopeEmission}
    {supply later : Sql.AliasSupply}
    (h : BaseMade target entry group folds members emission supply later) {ctes : List Sql.Cte}
    (hentry : ∀ e ∈ entry, e.FedBy ctes) (hctes : emission.ctes ⊆ ctes) :
    Sql.JoinsInOrder ctes [emission.query.source.base] emission.query.source.joins := by
  obtain ⟨table, start, outputs, folded, filters, bound, -, hstart, hmembers, -, hfolded, -, rfl⟩ :=
    h
  obtain ⟨bindings, hbindings, -⟩ := exists_bindings_of_bindGroup _ hmembers
  have htop : (supply.nextAlias table.name).1 ∈
      ([start.base] ++ start.joins.map Sql.Join.table).filterMap Sql.TableRef.storedAlias? := by
    refine List.mem_filterMap.2 ⟨table.reference _, ?_, rfl⟩
    change _ ∈ start.tables
    rw [tables_of_scopeSource hstart]
    exact List.mem_append_right _ (List.mem_singleton.2 rfl)
  refine Sql.JoinsInOrder.append_iff.2 ⟨Sql.JoinsInOrder.append_iff.2
    ⟨joinsInOrder_of_scopeSource hstart hentry, ?_⟩, Sql.JoinsInOrder.of_forall ?_⟩
  · rw [hbindings.joins]
    apply hbindings.made.joinsInOrder
    intro m hm
    obtain rfl := List.mem_singleton.1 hm
    exact htop
  · intro join hjoin
    obtain ⟨query, hquery, rfl⟩ := List.mem_map.1 hjoin
    obtain ⟨fold, -, _, _, owner, howner, hmade⟩ := hfolded.exists_of_mem hquery
    refine hmade.scoped.join _ _ (hctes (List.mem_map_of_mem hquery)) ?_
    rw [List.map_append, ← List.append_assoc, List.filterMap_append, List.mem_append]
    rcases hbindings.eq_top_or_exists_reference (Members.mem_bound_of_owner howner) with
      rfl | ⟨found, -, hmem⟩
    · exact .inl htop
    · exact .inr (List.mem_filterMap.2 ⟨_, hmem, rfl⟩)

/-- The column that links the scope of a recursion to the scope of its owner is read from the
recursive table. -/
theorem readsFrom_entryColumns {entry : Option RecursionEntry} {ctes : List Sql.Cte}
    (hentry : ∀ e ∈ entry, e.FedBy ctes) {tables : List Sql.TableRef}
    (htables : ∀ e ∈ entry, .cte e.table none ∈ tables) :
    ∀ c ∈ entryColumns entry, c.expression.ReadsFrom ctes tables := by
  intro c hc
  cases entry with
  | none => exact absurd hc List.not_mem_nil
  | some e =>
      obtain rfl := List.mem_singleton.1 hc
      obtain ⟨cte, hcte, hname, hanchor, -⟩ := hentry e rfl
      exact Sql.Expr.readsFrom_column_iff.2 ⟨_, htables e rfl, rfl, cte, hcte, hname, hanchor⟩

/-- A scope without its recursions reads what is in scope. -/
theorem BaseMade.scopedIn {target : Target} {entry : Option RecursionEntry} {group : Group}
    {folds : List Group} {members : Members} {emission : ScopeEmission}
    {supply later : Sql.AliasSupply}
    (hmade : BaseMade target entry group folds members emission supply later)
    {known : List Sql.Cte} (hentry : ∀ e ∈ entry, e.FedBy known) :
    emission.ScopedIn entry known := by
  have hentry' : ∀ e ∈ entry, e.FedBy (known ++ emission.ctes) := by
    intro e he
    obtain ⟨cte, hcte, hfed⟩ := hentry e he
    exact ⟨cte, List.mem_append_left _ hcte, hfed⟩
  have hjoins := hmade.joinsInOrder hentry' (List.subset_append_right _ _)
  have haliases : ∀ m ∈ members.bound, m.aliasName ∈
      emission.query.source.tables.filterMap Sql.TableRef.storedAlias? := fun m hm =>
    (hmade.boundIn_select m hm).mem_storedAliases
  obtain ⟨stored, aliases, found, htables, hfound, hstored, -⟩ := hmade.tables
  obtain ⟨table, start, outputs, folded, filters, bound, -, -, -, houtputs, hfolded, hfilters,
    rfl⟩ := hmade
  have hfolds : ∀ query ∈ folded, ∃ owner, query.Scoped owner := by
    intro query hquery
    obtain ⟨fold, -, _, _, owner, -, hmade⟩ := hfolded.exists_of_mem hquery
    exact ⟨owner, hmade.scoped⟩
  refine ⟨?ctes, ⟨?tables, hjoins, ?items, Members.readsFrom_filters haliases hfilters,
    fun e he => absurd he List.not_mem_nil⟩, ?link⟩
  case ctes =>
    refine Sql.CtesInOrder.map fun query hquery more _ => ?_
    obtain ⟨owner, hscoped⟩ := hfolds query hquery
    exact hscoped.cte more
  case tables =>
    intro ref href
    rw [ScopeQuery.select, htables, List.mem_append, List.mem_append] at href
    rcases href with (href | href) | href
    · obtain ⟨e, he, rfl⟩ := List.mem_map.1 href
      obtain ⟨cte, hcte, hname, -⟩ := hentry' e (Option.mem_toList.1 he)
      exact ⟨rfl, cte, hcte, hname⟩
    · exact hstored.among _ ref href
    · obtain ⟨query, hquery, rfl⟩ := List.mem_map.1 href
      refine ⟨rfl, query.cte, List.mem_append_right _ ?_, rfl⟩
      rw [hfound]
      exact List.mem_map_of_mem hquery
  case items =>
    intro item hitem
    obtain ⟨c, hc, rfl⟩ := List.mem_map.1 hitem
    rcases mem_columns_baseEmission_iff.1 hc with hc | ⟨output, houtput, rfl⟩ | ⟨query, hquery, hc⟩
    · refine readsFrom_entryColumns hentry' (fun e he => ?_) c hc
      rw [ScopeQuery.select, htables, he]
      exact List.mem_cons_self
    · exact Members.readsFrom_outputs haliases houtputs output houtput
    · obtain ⟨owner, hscoped⟩ := hfolds query hquery
      refine hscoped.columns _ _ (List.mem_append_right _ (List.mem_map_of_mem hquery)) ?_ c hc
      rw [ScopeQuery.select, tables_baseEmission]
      exact List.mem_append_right _ (List.mem_map_of_mem hquery)
  case link =>
    rintro e rfl
    exact List.mem_cons_self

/-- The scope of a recursion is scoped properly wherever the table that feeds it is known. -/
def ScopedAfter (_ : Scope) (entry : Option RecursionEntry) (emission : ScopeEmission)
    (_ _ : Sql.AliasSupply) : Prop :=
  ∀ known, (∀ e ∈ entry, e.FedBy known) → emission.ScopedIn entry known

/-- What is known of a recursion that is attached to the scope of its owner: its tables stand in
order, and it is joined by columns that are in scope. -/
structure AttachedRecursion.ScopedIn (attached : AttachedRecursion) (scopeCte : Sql.TableRef)
    (known : List Sql.Cte) : Prop where
  ctes : Sql.CtesInOrder known attached.ctes
  table : attached.join.table.Among attached.ctes
  join : ∀ e ∈ attached.join.conditions,
    e.ReadsFrom (known ++ attached.ctes) [scopeCte, attached.join.table]
  columns : ∀ c ∈ attached.columns, c.expression.ReadsFrom attached.ctes [attached.join.table]

/-- A recursion that is attached to a scope that projects its link reads what is in scope. -/
theorem AttachedMade.scopedIn {target : Target} {scopeRoot : Node} {scopeCte : String}
    {source : Scope × String} {attached : AttachedRecursion} {supply later : Sql.AliasSupply}
    (h : AttachedMade target ScopedAfter scopeRoot scopeCte source attached supply later)
    {known : List Sql.Cte}
    (hscope : ∃ cte ∈ known, cte.name = scopeCte ∧ cte.Projects source.2) :
    attached.ScopedIn (.cte scopeCte none) known := by
  obtain ⟨table, entry, emission, walked, bound, htable, hemission, rfl, rfl⟩ := h
  obtain ⟨hinOrder, hlink, hfed⟩ := htable.inOrder hscope
  have hscoped := hemission (known ++ [table]) fun e he => by
    obtain rfl := Option.some.inj he
    exact hfed
  have hname : Sql.Cte.ofSelect (bound.nextCte .scope).1 emission.query.select ∈
      (attach scopeRoot scopeCte source.1.node source.2 table (bound.nextCte .scope).1
        emission).ctes :=
    mem_ctes_attach_iff.2 (.inr (.inr rfl))
  refine ⟨?_, ⟨rfl, _, hname, rfl⟩, fun e he => ?_, fun c hc => ?_⟩
  · refine ⟨hinOrder, Sql.CtesInOrder.concat_iff.2 ⟨hscoped.ctes, rfl, hscoped.query⟩⟩
  · obtain rfl := List.mem_singleton.1 he
    obtain ⟨cte, hcte, hsame, hprojects⟩ := hscope
    refine Sql.Expr.readsFrom_equals_iff.2 ⟨?_, ?_⟩
    · exact Sql.Expr.readsFrom_column_iff.2 ⟨_, List.mem_cons_self, rfl, cte,
        List.mem_append_left _ hcte, hsame, hprojects⟩
    · refine Sql.Expr.readsFrom_of_projects (List.mem_append_right _ hname)
        (List.mem_cons_of_mem _ (List.mem_singleton.2 rfl)) ?_
      exact ScopeQuery.projects_ofSelect (hlink ▸ hscoped.link entry rfl) _
  · obtain ⟨column, hcolumn, rfl⟩ := List.mem_map.1 hc
    refine Sql.Expr.readsFrom_of_projects hname (List.mem_singleton.2 rfl) ?_
    exact ScopeQuery.projects_ofSelect
      (List.mem_map_of_mem (List.mem_filter.1 hcolumn).1) _

/-- The keys that the owners of recursions expose are read from the tables of the owners. -/
theorem readsFrom_of_linksMade {target : Target} {members : Members} {recursions : List Scope}
    {links : List ScopeColumn} {supply later : Sql.AliasSupply}
    (h : Steps (LinkMade target members) recursions links supply later)
    {tables : List Sql.TableRef}
    (hbound : ∀ m ∈ members.bound, m.aliasName ∈ tables.filterMap Sql.TableRef.storedAlias?)
    (ctes : List Sql.Cte) : ∀ c ∈ links, c.expression.ReadsFrom ctes tables := by
  intro c hc
  obtain ⟨recursion, -, _, _, owner, table, key, howner, -, -, -, rfl, -⟩ := h.exists_of_mem hc
  exact Sql.Expr.readsFrom_of_stored (hbound owner (Members.mem_bound_of_owner howner)) _ _

/-- The select that joins recursions to the table of their scope reads what is in scope, if the
table projects what is kept of the scope. -/
theorem scopedIn_joined (cte : Sql.Cte) {ctes known : List Sql.Cte} (hcte : cte ∈ ctes)
    {columns : List ScopeColumn} (hcolumns : ∀ c ∈ columns, cte.Projects c.aliasName)
    {attached : List AttachedRecursion}
    (hattached : ∀ recursion ∈ attached, recursion.ScopedIn (.cte cte.name none) known ∧
      known ++ recursion.ctes ⊆ ctes) :
    (ScopeQuery.mk ⟨.cte cte.name none, attached.map AttachedRecursion.join⟩ []
      (columns.map (·.readFrom cte.name) ++
        attached.flatMap AttachedRecursion.columns)).select.ScopedIn ctes where
  tables := by
    refine List.forall_mem_cons.2 ⟨⟨rfl, cte, hcte, rfl⟩, fun table htable => ?_⟩
    obtain ⟨join, hjoin, rfl⟩ := List.mem_map.1 htable
    obtain ⟨recursion, hrecursion, rfl⟩ := List.mem_map.1 hjoin
    obtain ⟨hscoped, hmore⟩ := hattached recursion hrecursion
    exact hscoped.table.mono (List.append_subset.1 hmore).2
  joins := by
    refine Sql.JoinsInOrder.of_forall fun join hjoin e he => ?_
    obtain ⟨recursion, hrecursion, rfl⟩ := List.mem_map.1 hjoin
    obtain ⟨hscoped, hmore⟩ := hattached recursion hrecursion
    exact (hscoped.join e he).mono hmore (List.Subset.refl _)
  items item hitem := by
    obtain ⟨c, hc, rfl⟩ := List.mem_map.1 hitem
    rcases List.mem_append.1 hc with hc | hc
    · obtain ⟨column, hcolumn, rfl⟩ := List.mem_map.1 hc
      exact Sql.Expr.readsFrom_of_projects hcte List.mem_cons_self (hcolumns column hcolumn)
    · obtain ⟨recursion, hrecursion, hc⟩ := List.mem_flatMap.1 hc
      obtain ⟨hscoped, hmore⟩ := hattached recursion hrecursion
      refine (hscoped.columns c hc).mono (List.append_subset.1 hmore).2 fun table htable => ?_
      rw [List.mem_singleton.1 htable]
      exact List.mem_cons_of_mem _ (List.mem_map_of_mem (List.mem_map_of_mem hrecursion))
  filters _ he := absurd he List.not_mem_nil
  groups _ he := absurd he List.not_mem_nil

/-- A scope with its recursions reads what is in scope. -/
theorem BaseMade.scopedIn_wrapped {target : Target} {entry : Option RecursionEntry} {group : Group}
    {folds : List Group} {recursions : List Scope} {members : Members} {base : ScopeEmission}
    {links : List ScopeColumn} {attached : List AttachedRecursion}
    {supply based linked later : Sql.AliasSupply}
    (hbase : BaseMade target entry group folds members base supply based)
    (hlinks : Steps (LinkMade target members) recursions links based linked)
    (hattached : Steps (AttachedMade target ScopedAfter group.node (linked.nextCte .scope).1)
      (recursions.zip (links.map ScopeColumn.aliasName)) attached (linked.nextCte .scope).2 later)
    {known : List Sql.Cte} (hentry : ∀ e ∈ entry, e.FedBy known) :
    (wrappedEmission entry base links (linked.nextCte .scope).1 attached).ScopedIn entry known := by
  have hscoped := hbase.scopedIn hentry
  have haliases : ∀ m ∈ members.bound, m.aliasName ∈
      base.query.source.tables.filterMap Sql.TableRef.storedAlias? := fun m hm =>
    (hbase.boundIn_select m hm).mem_storedAliases
  generalize hname : (linked.nextCte .scope).1 = scopeCte at hattached ⊢
  generalize hquery : ({ base.query with columns := base.query.columns ++ links } : ScopeQuery) =
    query
  have hselect : query.select.ScopedIn (known ++ base.ctes) := by
    rw [← hquery]
    refine ScopeQuery.scopedIn_columns hscoped.query (List.forall_mem_append.2 ⟨?_, ?_⟩)
    · exact fun c hc => ScopeQuery.readsFrom_of_mem_columns hscoped.query hc
    · exact readsFrom_of_linksMade hlinks haliases _
  have hprojects : ∀ column ∈ (base.query.columns ++ links).map ScopeColumn.aliasName,
      (Sql.Cte.ofSelect scopeCte query.select).Projects column := by
    intro column hcolumn
    rw [← hquery]
    exact ScopeQuery.projects_ofSelect hcolumn _
  -- Each recursion finds its link in the table of the scope, whatever comes between.
  have hmade : ∀ recursion ∈ attached, ∀ more,
      known ++ (base.ctes ++ [.ofSelect scopeCte query.select]) ⊆ more →
        recursion.ScopedIn (.cte scopeCte none) more := by
    intro recursion hrecursion more hmore
    obtain ⟨source, hsource, _, _, hmade⟩ := hattached.exists_of_mem hrecursion
    refine hmade.scopedIn ⟨.ofSelect scopeCte query.select, hmore (by simp), rfl, ?_⟩
    apply hprojects
    rw [List.map_append]
    exact List.mem_append_right _ (List.of_mem_zip hsource).2
  have hall : ∀ recursion ∈ attached,
      known ++ (base.ctes ++ [Sql.Cte.ofSelect scopeCte query.select]) ++ recursion.ctes ⊆
        known ++ (base.ctes ++ [Sql.Cte.ofSelect scopeCte query.select] ++
          attached.flatMap AttachedRecursion.ctes) := by
    intro recursion hrecursion
    rw [← List.append_assoc known (base.ctes ++ _)]
    refine List.append_subset.2 ⟨List.subset_append_left _ _, fun cte hcte => ?_⟩
    exact List.mem_append_right _ (List.mem_flatMap.2 ⟨recursion, hrecursion, hcte⟩)
  rw [wrappedEmission, hquery]
  refine ⟨?ctes, ?query, ?link⟩
  case ctes =>
    refine Sql.CtesInOrder.append_iff.2 ⟨Sql.CtesInOrder.concat_iff.2
      ⟨hscoped.ctes, rfl, hselect⟩, Sql.CtesInOrder.flatMap ?_⟩
    intro recursion hrecursion more hmore
    exact (hmade recursion hrecursion more hmore).ctes
  case query =>
    have hkept : ∀ c ∈ kept entry (base.query.columns ++ links),
        (Sql.Cte.ofSelect scopeCte query.select).Projects c.aliasName := fun c hc =>
      hprojects _ (List.mem_map_of_mem (List.mem_filter.1 hc).1)
    exact scopedIn_joined (.ofSelect scopeCte query.select) (by simp) hkept
      fun recursion hrecursion =>
        ⟨hmade recursion hrecursion _ (List.Subset.refl _), hall recursion hrecursion⟩
  case link =>
    rintro e rfl
    obtain ⟨c, hc, hlink⟩ := List.mem_map.1 (hscoped.link e rfl)
    refine List.mem_map.2 ⟨c.readFrom scopeCte, List.mem_append_left _ (List.mem_map_of_mem ?_),
      hlink⟩
    refine List.mem_filter.2 ⟨List.mem_append_left _ hc, ?_⟩
    simp [hlink]

/-- Every emitted scope reads what is in scope. -/
theorem scopedAfter_of_emitScope {target : Target} {scope : Scope} {entry : Option RecursionEntry}
    {emission : ScopeEmission} {supply later : Sql.AliasSupply}
    (h : emitScope target scope entry supply = .ok (emission, later)) :
    ScopedAfter scope entry emission supply later := by
  refine emitScope_induction (motive := ScopedAfter) ?plain ?wrapped scope h
  case plain =>
    intro group folds entry members base supply later hbase known hentry
    exact hbase.scopedIn hentry
  case wrapped =>
    intro group folds recursions entry members base links attached supply based linked later _ hbase
      hlinks hattached known hentry
    exact hbase.scopedIn_wrapped hlinks hattached hentry

namespace Sql

/-- The names of a statement are those of its common table expressions and the aliases of the stored
tables of its selects. -/
theorem Statement.names_perm (statement : Statement) :
    (statement.ctes.map Cte.name ++
      statement.selects.flatMap fun select => select.source.storedAliases).Perm
      (statement.ctes.flatMap Cte.names ++ statement.body.source.storedAliases) := by
  rw [selects, List.flatMap_append, List.flatMap_singleton, ← List.append_assoc,
    List.map_eq_flatMap, List.flatMap_assoc]
  exact (List.flatMap_append_perm _ _ _).append_right _

/-- A statement whose names all differ and whose common table expressions stand in order is in
order as a whole. -/
theorem Statement.ordered {statement : Statement} (hctes : CtesInOrder [] statement.ctes)
    (hbody : statement.body.ScopedIn statement.ctes)
    (hnames : (statement.ctes.map Cte.name ++
      statement.selects.flatMap fun select => select.source.storedAliases).Nodup) :
    statement.Ordered := by
  obtain ⟨hdistinct, -, hdisjoint⟩ := List.nodup_append'.1 hnames
  have hscoped : ∀ select ∈ statement.selects, select.ScopedIn statement.ctes := by
    intro select hselect
    rcases List.mem_append.1 hselect with hselect | hselect
    · exact hctes.scopedIn select hselect
    · exact List.mem_singleton.1 hselect ▸ hbody
  refine ⟨hdistinct, ?_, ?_, filterMap_cteName?_subset hbody.tables, ?_⟩
  · intro cte hcte select hselect table htable halias
    cases table with
    | table schema name aliasName =>
        have hmem : cte.name ∈ select.source.storedAliases :=
          List.mem_filterMap.2 ⟨_, htable, congrArg some halias⟩
        exact absurd (List.mem_flatMap.2 ⟨select, hselect, hmem⟩)
          (hdisjoint (List.mem_map_of_mem hcte))
    | cte name aliasName =>
        obtain ⟨rfl, -⟩ := (hscoped select hselect).tables _ htable
        exact congrArg (TableRef.cte · none) halias
  · intro before cte after hsplit
    refine (hctes.inOrder_of_eq_append hsplit).readsOnly ?_
    rw [hsplit, List.map_append, List.nodup_append'] at hdistinct
    exact fun hmem => hdistinct.2.2 hmem List.mem_cons_self
  · intro cte hcte
    obtain ⟨before, after, hsplit⟩ := List.append_of_mem hcte
    exact (hctes.inOrder_of_eq_append hsplit).isRecursive_iff

end Sql

namespace QueryTree

variable {tree : QueryTree} {target : Target} {statement : Sql.Statement}

/-- What the emission of a statement tells about the names in it and what its clauses read. -/
theorem inOrder_of_statement (h : tree.statement target = .ok statement) :
    Sql.CtesInOrder [] statement.ctes ∧ statement.body.ScopedIn statement.ctes ∧
      (statement.ctes.map Sql.Cte.name ++
        statement.selects.flatMap fun select => select.source.storedAliases).Nodup ∧
      ∀ select ∈ statement.selects, select.source.aliases.Nodup := by
  obtain ⟨emission, hemission, hctes, hbody⟩ := exists_of_statement_eq_ok h
  obtain ⟨root, made, later, -, hmade, -, rfl⟩ := exists_of_emission_eq_ok hemission
  have hscoped := scopedAfter_of_emitScope hmade [] (by simp)
  have hnamed := named_of_emitScope hmade (by simp)
  refine ⟨hctes ▸ hscoped.ctes, ?_, ?_, ?_⟩
  · rw [hctes, hbody]
    -- The body exposes the outputs among the columns of the emission.
    refine ScopeQuery.scopedIn_columns hscoped.query fun c hc => ?_
    exact ScopeQuery.readsFrom_of_mem_columns hscoped.query (mem_sortedOutputs_iff.1 hc).1
  · rw [statement.names_perm.nodup_iff, hctes, hbody]
    exact hnamed.takes.nodup
  · intro select hselect
    rw [Sql.Statement.selects, hctes, hbody] at hselect
    rcases List.mem_append.1 hselect with hselect | hselect
    · obtain ⟨cte, hcte, hselect⟩ := List.mem_flatMap.1 hselect
      exact hnamed.sources cte hcte select hselect
    · obtain rfl := List.mem_singleton.1 hselect
      exact hnamed.source

theorem exists_statement_pedigree :
    ∃ tree statement, (Query.ofPattern Query.pedigree).tree = .ok tree ∧
      tree.statement Query.farm = .ok statement := by
  obtain ⟨statement, hcompile⟩ := Query.exists_compile_pedigree
  obtain ⟨tree, htree, hstatement⟩ := exists_of_compile hcompile
  exact ⟨tree, statement, htree, hstatement⟩

/-- Every select of an emitted statement is well scoped: aliases differ, each clause reads tables
that are bound where it stands, and common table expressions, which have names of their own, are
read only for columns that they project. -/
theorem wellScoped_selects (h : tree.statement target = .ok statement) :
    (statement.ctes.map Sql.Cte.name).Nodup ∧
      ∀ select ∈ statement.selects, select.WellScoped statement.ctes := by
  obtain ⟨hctes, hbody, hnames, hsources⟩ := inOrder_of_statement h
  refine ⟨(List.nodup_append'.1 hnames).1, fun select hselect => ?_⟩
  refine Sql.Select.ScopedIn.wellScoped ?_ (hsources select hselect)
  rcases List.mem_append.1 hselect with hselect | hselect
  · exact hctes.scopedIn select hselect
  · exact List.mem_singleton.1 hselect ▸ hbody

theorem wellScoped_selects_pedigree :
    ∃ tree statement, (Query.ofPattern Query.pedigree).tree = .ok tree ∧
      tree.statement Query.farm = .ok statement ∧
      ∀ select ∈ statement.selects, select.WellScoped statement.ctes := by
  obtain ⟨tree, statement, htree, hstatement⟩ := exists_statement_pedigree
  exact ⟨tree, statement, htree, hstatement, (wellScoped_selects hstatement).2⟩

/-- The common table expressions of an emitted statement are named apart and stand in the order in
which they are read. -/
theorem ordered_ctes (h : tree.statement target = .ok statement) : statement.Ordered := by
  obtain ⟨hctes, hbody, hnames, -⟩ := inOrder_of_statement h
  exact Sql.Statement.ordered hctes hbody hnames

theorem ordered_ctes_pedigree :
    ∃ tree statement, (Query.ofPattern Query.pedigree).tree = .ok tree ∧
      tree.statement Query.farm = .ok statement ∧ statement.Ordered := by
  obtain ⟨tree, statement, htree, hstatement⟩ := exists_statement_pedigree
  exact ⟨tree, statement, htree, hstatement, ordered_ctes hstatement⟩

end QueryTree

end TraversalSql
