import TraversalSql.Proofs.ScopeNesting
import TraversalSql.Proofs.Scoping

/-!
Optional matches stay optional.  What is reached from an optional vertex is optional itself, so no
firm join depends on a table that may be missing, which would drop the rows where it is; and a
filter lets these rows pass exactly if the table of its column, or of its tag, may be missing.
-/

namespace TraversalSql

open Outcome

namespace Sql

/-- The conditions of a join read columns of tables with given aliases only. -/
def Join.ReadsOnly (join : Join) (aliases : List String) : Prop :=
  ∀ e ∈ join.conditions, ∀ column ∈ e.columns, column.1 ∈ aliases

theorem Join.readsOnly_equals_iff {kind : JoinKind} {table : TableRef} {first second : String}
    {column other : String} {aliases : List String} :
    (Join.mk kind table [.equals (.column first column) (.column second other)]).ReadsOnly aliases ↔
      first ∈ aliases ∧ second ∈ aliases := by
  have hcolumns : (Expr.equals (.column first column) (.column second other)).columns =
      [(first, column), (second, other)] := rfl
  rw [ReadsOnly, List.forall_mem_singleton, hcolumns, List.forall_mem_cons,
    List.forall_mem_singleton]

namespace FromClause

/-- No table that may be missing is read where another one is joined firmly. -/
def SparesOuter (source : FromClause) : Prop :=
  ∀ join ∈ source.joins, join.kind = .inner → ∀ e ∈ join.conditions, ∀ column ∈ e.columns,
    column.1 ∉ source.outerAliases

theorem SparesOuter.of_firm {source : FromClause} (hdistinct : source.aliases.Nodup)
    (h : ∀ join ∈ source.joins, join.kind = .inner → join.ReadsOnly source.firmAliases) :
    source.SparesOuter := fun join hjoin hkind e he column hcolumn =>
  not_mem_outerAliases hdistinct (h join hjoin hkind e he column hcolumn)

theorem SparesOuter.of_inner {source : FromClause}
    (h : ∀ join ∈ source.joins, join.kind = .inner) : source.SparesOuter := by
  intro join _ _ e _ column _
  rw [outerAliases_eq_nil h]
  exact List.not_mem_nil

end FromClause

end Sql

/-- What hangs below an optional vertex of a group is optional. -/
def Group.Inherits (group : Group) : Prop :=
  ∀ above below, group.Hangs above below → above.relation.site.inOptional →
    below.relation.site.inOptional

/-- What hangs below an optional vertex is optional, in a scope, its folds and the scopes within
it. -/
def Scope.Inherits (root : Scope) : Prop :=
  ∀ scope, Within root scope → scope.group.Inherits ∧ ∀ fold ∈ scope.folds, fold.Inherits

theorem Scope.Inherits.recursion {scope recursion : Scope} (h : scope.Inherits)
    (hrecursion : recursion ∈ scope.recursions) : recursion.Inherits :=
  fun inner hinner => h inner (.of_recursion hrecursion hinner)

/-- The scopes of a query that was read inherit what is optional. -/
theorem Query.inherits_rootScope {query : Query} {read : Blocks} {tree : QueryTree} {root : Scope}
    (hread : query.blocks = .ok read) (htree : QueryTree.ofBlocks read = .ok tree)
    (hroot : tree.rootScope? = some root) : root.Inherits := by
  have harranged : Arranged tree.nodes := by
    obtain ⟨hassemblable, rfl⟩ := ofBlocks_eq_ok_iff.1 htree
    exact (Blocks.rooted_tree hassemblable.planted).arranged
  have hgroup : ∀ scope ∈ QueryTree.scopes tree.nodes, scope.group.Inherits := by
    intro scope hscope above below hhangs hoptional
    have hcut := Scope.cutFrom_of_mem_scopes harranged hscope
    have hkind : ScopeKind.optional ≠ .fold := by decide
    exact isInside_of_parent hread htree (hcut.mem above hhangs.mem_nodes.1)
      (hcut.mem below hhangs.mem_nodes.2) (hcut.hangs above below hhangs).1 hkind hoptional
  obtain ⟨_, -, hmem⟩ := QueryTree.rootScope?_eq_some hroot
  intro scope hwithin
  have hscope := hwithin.mem_scopes harranged hmem
  refine ⟨hgroup scope hscope, fun fold hfold => ?_⟩
  obtain ⟨-, ⟨owner, howner, rfl⟩, -⟩ :=
    (Scope.cutFrom_of_mem_scopes harranged hscope).folds fold hfold
  exact hgroup owner howner

section Joins

variable {schema : Schema} {outer inner : BoundVertex} {traversal : Traversal}
  {supply later : Sql.AliasSupply} {source : Sql.FromClause}

/-- Where a path is joined firmly to a firm table, each of its joins reads firm tables. -/
theorem JoinPath.readsOnly {hops : List JoinHop}
    (h : JoinPath schema outer inner traversal supply hops later)
    (hjoins : ∀ hop ∈ hops, hop.join .inner ∈ source.joins)
    (houter : outer.aliasName ∈ source.firmAliases) :
    ∀ hop ∈ hops, (hop.join .inner).ReadsOnly source.firmAliases := by
  have hfirm : ∀ hop ∈ hops, hop.table.aliasName ∈ source.firmAliases := fun hop hhop =>
    Sql.FromClause.mem_firmAliases_of_join (hjoins hop hhop) rfl
  cases h with
  | direct =>
      simp only [List.forall_mem_singleton] at hfirm ⊢
      exact Sql.Join.readsOnly_equals_iff.2 ⟨houter, hfirm⟩
  | junction =>
      simp only [List.forall_mem_cons] at hfirm ⊢
      obtain ⟨hjunction, hvertex, -⟩ := hfirm
      exact ⟨Sql.Join.readsOnly_equals_iff.2 ⟨houter, hjunction⟩,
        Sql.Join.readsOnly_equals_iff.2 ⟨hjunction, hvertex⟩, by simp⟩

/-- The same holds where the table of the first hop takes the place of the base. -/
theorem JoinPath.readsOnly_rest {first : JoinHop} {rest : List JoinHop}
    (h : JoinPath schema outer inner traversal supply (first :: rest) later)
    (hbase : source.base = first.table) (hjoins : ∀ hop ∈ rest, hop.join .inner ∈ source.joins) :
    ∀ hop ∈ rest, (hop.join .inner).ReadsOnly source.firmAliases := by
  have hfirst : first.table.aliasName ∈ source.firmAliases :=
    hbase ▸ Sql.FromClause.base_mem_firmAliases
  have hfirm : ∀ hop ∈ rest, hop.table.aliasName ∈ source.firmAliases := fun hop hhop =>
    Sql.FromClause.mem_firmAliases_of_join (hjoins hop hhop) rfl
  cases h with
  | direct => simp
  | junction =>
      simp only [List.forall_mem_singleton] at hfirm ⊢
      exact Sql.Join.readsOnly_equals_iff.2 ⟨hfirst, hfirm⟩

end Joins

theorem Node.joinKind_eq_inner_iff {node scopeRoot : Node} :
    node.joinKind scopeRoot = .inner ↔ node.optionalWithin scopeRoot = false := by
  unfold Node.joinKind
  split
  · next h => simp [h]
  · next h => simpa using h

/-- The firm joins of the members of a scope read what is joined firmly: a vertex below one that may
be missing may be missing too. -/
theorem Members.MadeBy.readsOnly {members : Members} {target : Target} {scopeRoot : Node}
    {top : Member} {bindings : List Binding} {supply later : Sql.AliasSupply}
    (h : members.MadeBy target scopeRoot [top] bindings supply later) {group : Group}
    (hhangs : ∀ b ∈ bindings, group.Hangs b.parent.node b.child.node) (hinherits : group.Inherits)
    {source : Sql.FromClause} (hjoined : ∀ m ∈ members.bound, m.JoinedIn scopeRoot source)
    (hjoins : members.joins ⊆ source.joins) :
    ∀ join ∈ members.joins, join.kind = .inner → join.ReadsOnly source.firmAliases := by
  intro join hjoin hinner
  rw [h.joins] at hjoin
  obtain ⟨b, hb, hjoin⟩ := List.mem_flatMap.1 hjoin
  obtain ⟨hop, hhop, rfl⟩ := List.mem_map.1 hjoin
  have hinner : b.child.node.joinKind scopeRoot = .inner := hinner
  have hparent : b.parent.node.optionalWithin scopeRoot = false := by
    have hchild := Node.joinKind_eq_inner_iff.1 hinner
    have hinherited := hinherits _ _ (hhangs b hb)
    unfold Node.optionalWithin at hchild ⊢
    cases habove : b.parent.node.relation.site.inOptional with
    | false => rfl
    | true => rwa [hinherited habove] at hchild
  have hbound : b.parent ∈ members.bound := h.bound.mem_iff.2 (h.made.parent_mem b hb)
  obtain ⟨_, _, traversal, table, -, -, -, hpath⟩ := h.made.made_of_mem hb
  rw [hinner]
  refine hpath.readsOnly (fun hop hhop => hjoins ?_) ((hjoined _ hbound).firm hparent) hop hhop
  rw [h.joins]
  refine List.mem_flatMap.2 ⟨b, hb, List.mem_map.2 ⟨hop, hhop, ?_⟩⟩
  rw [hinner]

/-- In the select of a fold no firm join depends on what may be missing. -/
theorem FoldMade.sparesOuter {target : Target} {owner : Member} {fold : Group} {query : FoldQuery}
    {supply later : Sql.AliasSupply} (h : FoldMade target owner fold query supply later)
    (hinherits : fold.Inherits) :
    ∀ select ∈ query.cte.selects, select.source.aliases.Nodup → select.source.SparesOuter := by
  obtain ⟨select, hselect, -⟩ := h.binds.select
  have hjoined := h.joinedIn hselect
  rw [Sql.Cte.selects_of_plain? hselect, List.forall_mem_singleton]
  intro hdistinct
  obtain ⟨traversal, table, first, rest, members, filters, outputs, joined, bound, -, -, hpath,
    hmembers, -, -, rfl, -⟩ := h
  obtain rfl := Option.some.inj hselect
  obtain ⟨bindings, hbindings, -, hhangs, -⟩ := exists_bindings_of_bindGroup _ hmembers
  refine .of_firm hdistinct fun join hjoin hinner => ?_
  rcases List.mem_append.1 hjoin with hjoin | hjoin
  · obtain ⟨hop, hhop, rfl⟩ := List.mem_map.1 hjoin
    refine hpath.readsOnly_rest rfl (fun hop hhop => ?_) hop hhop
    exact List.mem_append_left _ (List.mem_map_of_mem hhop)
  · exact hbindings.readsOnly hhangs hinherits hjoined (List.subset_append_right _ _) join hjoin
      hinner

theorem readsOnly_of_scopeSource {entry : Option RecursionEntry} {table : Table}
    {aliasName : String} {start : Sql.FromClause}
    (h : scopeSource entry table aliasName = .ok start) :
    ∀ join ∈ start.joins, join.ReadsOnly start.firmAliases := by
  cases entry with
  | none =>
      obtain rfl := Except.ok.inj h
      simp
  | some entry =>
      obtain ⟨key, -, h⟩ := bind_eq_ok_iff.1 h
      obtain rfl := pure_eq_ok_iff.1 h
      rw [List.forall_mem_singleton]
      exact Sql.Join.readsOnly_equals_iff.2
        ⟨List.mem_cons_of_mem _ List.mem_cons_self, Sql.FromClause.base_mem_firmAliases⟩

/-- In no select of an emission whose aliases differ does a firm join read what may be missing. -/
structure ScopeEmission.SparesOuter (emission : ScopeEmission) : Prop where
  ctes : ∀ select ∈ emission.ctes.flatMap Sql.Cte.selects,
    select.source.aliases.Nodup → select.source.SparesOuter
  query : emission.query.source.aliases.Nodup → emission.query.source.SparesOuter

/-- A scope without its recursions joins firmly only what is reached firmly; folds may be missing,
and nothing is reached from them. -/
theorem BaseMade.sparesOuter {target : Target} {entry : Option RecursionEntry} {group : Group}
    {folds : List Group} {members : Members} {emission : ScopeEmission}
    {supply later : Sql.AliasSupply}
    (h : BaseMade target entry group folds members emission supply later)
    (hgroup : group.Inherits) (hfolds : ∀ fold ∈ folds, fold.Inherits) :
    emission.SparesOuter := by
  have hjoined := h.joinedIn
  obtain ⟨table, start, outputs, folded, filters, bound, -, hstart, hmembers, -, hfolded, -, rfl⟩ :=
    h
  obtain ⟨bindings, hbindings, -, hhangs, -⟩ := exists_bindings_of_bindGroup _ hmembers
  refine ⟨?_, fun hdistinct => .of_firm hdistinct fun join hjoin hinner => ?_⟩
  · intro select hselect
    obtain ⟨cte, hcte, hselect⟩ := List.mem_flatMap.1 hselect
    obtain ⟨query, hquery, rfl⟩ := List.mem_map.1 hcte
    obtain ⟨fold, hfold, _, _, owner, -, hmade⟩ := hfolded.exists_of_mem hquery
    exact hmade.sparesOuter (hfolds fold hfold) select hselect
  · rcases mem_joins_baseEmission_iff.1 hjoin with hjoin | hjoin | ⟨query, hquery, rfl⟩
    · intro e he column hcolumn
      rw [baseEmission, List.append_assoc]
      exact start.firmAliases_append _ (readsOnly_of_scopeSource hstart join hjoin e he column
        hcolumn)
    · refine hbindings.readsOnly hhangs hgroup hjoined ?_ join hjoin hinner
      exact fun join hjoin => mem_joins_baseEmission_iff.2 (.inr (.inl hjoin))
    · obtain ⟨fold, -, _, _, owner, -, hmade⟩ := hfolded.exists_of_mem hquery
      obtain ⟨_, _, _, _, _, _, _, _, _, -, -, -, -, -, -, rfl, -⟩ := hmade
      exact absurd hinner (by simp [foldQuery])

/-- A recursive table joins everything firmly. -/
theorem Recursion.StepMade.kind_joins {recursion : Recursion} {target : Target} {step : Sql.Select}
    {supply later : Sql.AliasSupply} (h : recursion.StepMade target step supply later) :
    ∀ join ∈ step.source.joins, join.kind = .inner := by
  have hhops : ∀ hops : List JoinHop, ∀ join ∈ hops.map (JoinHop.join · .inner),
      join.kind = .inner := by
    intro hops join hjoin
    obtain ⟨hop, -, rfl⟩ := List.mem_map.1 hjoin
    rfl
  cases h with
  | @fromKey _ _ joined =>
      cases joined with
      | nil => exact fun join hjoin => absurd hjoin List.not_mem_nil
      | cons first rest => exact List.forall_mem_cons.2 ⟨rfl, hhops rest⟩
  | @fromRow _ _ joined => exact List.forall_mem_cons.2 ⟨rfl, hhops joined⟩

theorem TableMade.sparesOuter {target : Target} {scopeCte link : String} {recursion : Node}
    {table : Sql.Cte} {entry : RecursionEntry} {supply later : Sql.AliasSupply}
    (h : TableMade target scopeCte link recursion table entry supply later) :
    ∀ select ∈ table.selects, select.source.SparesOuter := by
  obtain ⟨walk, step, combinator, -, hstep, -, rfl, -⟩ := h
  intro select hselect
  rcases List.mem_pair.1 hselect with rfl | rfl
  · exact .of_inner fun join hjoin => absurd hjoin List.not_mem_nil
  · exact .of_inner hstep.kind_joins

/-- Where optional vertices pass on that they are optional, no firm join depends on them. -/
def SparesAfter (scope : Scope) (_ : Option RecursionEntry) (emission : ScopeEmission)
    (_ _ : Sql.AliasSupply) : Prop :=
  scope.Inherits → emission.SparesOuter

/-- The select that joins the recursions of a scope joins each to the scope itself. -/
theorem BaseMade.sparesOuter_wrapped {target : Target} {entry : Option RecursionEntry}
    {group : Group} {folds : List Group} {recursions : List Scope} {members : Members}
    {base : ScopeEmission} {links : List ScopeColumn} {attached : List AttachedRecursion}
    {scopeCte : String} {supply based linked later : Sql.AliasSupply}
    (hbase : BaseMade target entry group folds members base supply based)
    (hattached : Steps (AttachedMade target SparesAfter group.node scopeCte)
      (recursions.zip (links.map ScopeColumn.aliasName)) attached linked later)
    (hinherits : (Scope.mk group folds recursions).Inherits) :
    (wrappedEmission entry base links scopeCte attached).SparesOuter := by
  obtain ⟨hgroup, hfolds⟩ := hinherits _ .refl
  have hspares := hbase.sparesOuter hgroup hfolds
  refine ⟨?_, fun hdistinct => .of_firm hdistinct fun join hjoin hinner => ?_⟩
  · rw [wrappedEmission, List.flatMap_append, List.flatMap_append, List.forall_mem_append,
      List.forall_mem_append]
    refine ⟨⟨hspares.ctes, ?_⟩, ?_⟩
    · rw [List.flatMap_singleton, Sql.Cte.ofSelect, Sql.Cte.selects, List.forall_mem_singleton]
      exact hspares.query
    · intro select hselect
      obtain ⟨cte, hcte, hselect⟩ := List.mem_flatMap.1 hselect
      obtain ⟨recursion, hrecursion, hcte⟩ := List.mem_flatMap.1 hcte
      obtain ⟨source, hsource, _, _, table, _, emission, _, _, htable, hemission, rfl, -⟩ :=
        hattached.exists_of_mem hrecursion
      have hbelow := hemission (hinherits.recursion (List.of_mem_zip hsource).1)
      rcases mem_ctes_attach_iff.1 hcte with rfl | hcte | rfl
      · exact fun _ => htable.sparesOuter select hselect
      · exact hbelow.ctes select (List.mem_flatMap.2 ⟨cte, hcte, hselect⟩)
      · obtain rfl := List.mem_singleton.1 hselect
        exact hbelow.query
  · obtain ⟨recursion, hrecursion, rfl⟩ := List.mem_map.1 hjoin
    have hown := Sql.FromClause.mem_firmAliases_of_join hjoin hinner
    obtain ⟨source, -, _, _, _, _, _, _, _, -, -, rfl, -⟩ := hattached.exists_of_mem hrecursion
    exact Sql.Join.readsOnly_equals_iff.2 ⟨Sql.FromClause.base_mem_firmAliases, hown⟩

theorem sparesAfter_of_emitScope {target : Target} {scope : Scope} {entry : Option RecursionEntry}
    {emission : ScopeEmission} {supply later : Sql.AliasSupply}
    (h : emitScope target scope entry supply = .ok (emission, later)) :
    SparesAfter scope entry emission supply later := by
  refine emitScope_induction (motive := SparesAfter) ?plain ?wrapped scope h
  case plain =>
    intro group folds entry members base supply later hbase hinherits
    obtain ⟨hgroup, hfolds⟩ := hinherits _ .refl
    exact hbase.sparesOuter hgroup hfolds
  case wrapped =>
    intro group folds recursions entry members base links attached supply based linked later _ hbase
      _ hattached
    exact hbase.sparesOuter_wrapped hattached

/-- A condition lets a row pass where a column is missing: a test for it is among its
alternatives. -/
def Sql.Expr.Guards (condition column : Expr) : Prop :=
  ∃ alternatives, condition = .apply .or alternatives ∧ column.isNull ∈ alternatives

theorem Operand.isNull_mem_guards_iff {operand : Operand} {e : Sql.Expr} :
    e.isNull ∈ operand.guards ↔ operand.nullable ∧ operand.column = e := by
  unfold Operand.guards
  split
  · next h => simp [h, Sql.Expr.isNull, eq_comm]
  · next h => simp [h]

theorem Operand.isNull_mem_guardsOf_iff {own : Operand} {tag : Option Operand} {e : Sql.Expr} :
    e.isNull ∈ own.guardsOf tag ↔
      ∃ operand ∈ own :: tag.toList, operand.nullable ∧ operand.column = e := by
  cases tag <;> simp [Operand.guardsOf, isNull_mem_guards_iff]

/-- A comparison is no test for a missing column. -/
theorem FilterOperator.ne_isNull_of_comparison? {operator : FilterOperator}
    {column comparison : Sql.Expr} {values : List Sql.Expr}
    (h : operator.comparison? column values = some comparison) (e : Sql.Expr) :
    e.isNull ≠ comparison := by
  unfold comparison? at h
  split at h
  case h_5 => exact absurd h (by simp)
  all_goals
    obtain rfl := Option.some.inj h
    simp [Sql.Expr.isNull]

/-- A guarded comparison lets a row pass exactly by its guards. -/
theorem guards_guarded_iff {operator : FilterOperator} {column comparison : Sql.Expr}
    {values : List Sql.Expr} (h : operator.comparison? column values = some comparison)
    {guards : List Sql.Expr} {e : Sql.Expr} :
    (guarded guards comparison).Guards e ↔ e.isNull ∈ guards := by
  by_cases hempty : guards = []
  · subst hempty
    obtain ⟨op, operands, rfl, hop, -⟩ := FilterOperator.exists_apply_of_comparison? h
    simp [guarded, Sql.Expr.Guards, hop]
  · have hne := FilterOperator.ne_isNull_of_comparison? h e
    simp [guarded, Sql.Expr.Guards, hempty, hne]

/-- A column of a member as an operand of a filter. -/
def Member.operand (member : Member) (scopeRoot : Node) (column : String) : Operand :=
  ⟨.column member.aliasName column, member.node.optionalWithin scopeRoot⟩

/-- Where the operands of a filter are columns of members, the filter lets a row pass in which one
of them is missing exactly if its table may be missing. -/
theorem guards_iff_mem_outerAliases {source : Sql.FromClause} (hdistinct : source.aliases.Nodup)
    {scopeRoot : Node} {own : Operand} {tag : Option Operand}
    (hoperands : ∀ operand ∈ own :: tag.toList, ∃ (m : Member) (column : String),
      m.JoinedIn scopeRoot source ∧ operand = m.operand scopeRoot column)
    {operator : FilterOperator} {compared comparison : Sql.Expr} {values : List Sql.Expr}
    (hcomparison : operator.comparison? compared values = some comparison) {m : Member}
    {column : String} (hm : m.JoinedIn scopeRoot source)
    (hmem : m.operand scopeRoot column ∈ own :: tag.toList) :
    (guarded (own.guardsOf tag) comparison).Guards (.column m.aliasName column) ↔
      m.aliasName ∈ source.outerAliases := by
  rw [guards_guarded_iff hcomparison, Operand.isNull_mem_guardsOf_iff]
  constructor
  · rintro ⟨operand, hoperand, hnullable, hcolumn⟩
    obtain ⟨other, field, hother, rfl⟩ := hoperands operand hoperand
    -- Another member with the same alias stands for the same table.
    obtain ⟨hsame, -⟩ := Sql.Expr.column.inj hcolumn
    exact hsame ▸ hother.outer hnullable
  · intro houter
    exact ⟨_, hmem, (hm.mem_outerAliases_iff hdistinct).1 houter, rfl⟩

namespace Query

/-- A condition lets a row pass where the field of the vertex at a location is missing exactly if
the table of the vertex may be missing in the select of the condition. -/
def GuardedOn (schema : Schema) (members : List Member) (place : Sql.Select × Sql.Expr)
    (location : Location) (field : String) : Prop :=
  ∀ m ∈ members, m.node.location = location →
    ∀ column, schema.columnOf m.node.typeName field = .ok column →
      (place.2.Guards (.column m.aliasName column) ↔ m.aliasName ∈ place.1.source.outerAliases)

/-- The condition of a filter lets rows pass where its own field or the one of its tag is missing,
each exactly if the table may be missing. -/
structure FilterRequest.GuardedAt (request : FilterRequest) (schema : Schema)
    (members : List Member) (place : Sql.Select × Sql.Expr) : Prop where
  own : ∀ location ∈ request.location, GuardedOn schema members place location request.field
  tag : ∀ ref ∈ request.tag, GuardedOn schema members place ref.location ref.field

/-- The condition that was made from a filter that was read has the tests that it needs. -/
theorem FilterRequest.Met.guardedAt {request : FilterRequest} {read : Blocks} {schema : Schema}
    {bound : List Member} {p : Predicate} (h : request.Met p)
    (hnodes : ∀ m ∈ bound, m.node ∈ read.tree.nodes)
    (hlocations : (bound.map fun m => m.node.location).Nodup) {source : Member × NodePredicate}
    (hsource : source.2 = p.attached read.place?) {place : Sql.Select × Sql.Expr}
    (hstands : StandsFor schema bound source place) (hdistinct : place.1.source.aliases.Nodup) :
    request.GuardedAt schema bound place := by
  obtain ⟨m, attached⟩ := source
  obtain rfl : attached = p.attached read.place? := hsource
  obtain ⟨hpredicate, members, scopeRoot, hmember, hbound, hjoined, hfilter⟩ := hstands
  obtain ⟨column, tag, comparison, hcolumn, htag, hsome, hcomparison, hcondition⟩ :=
    Members.exists_of_filter_eq_ok hfilter
  have hlocation : p.site.location = m.node.location :=
    (Blocks.location_of_mem_predicates (hnodes m (hbound m hmember).1) hpredicate).1
  have honly : ∀ {other member : Member}, other ∈ bound → member ∈ members.bound →
      other.node.location = member.node.location → other = member := fun hother hin hsame =>
    List.inj_on_of_nodup_map hlocations hother (hbound _ hin).1 hsame
  have htagged : ∀ operand ∈ tag, ∃ ref tagged field, p.tag = some ref ∧
      tagged ∈ members.bound ∧ tagged.node.location = ref.location ∧
      schema.columnOf tagged.node.typeName ref.field = .ok field ∧
      operand = tagged.operand scopeRoot field := fun operand hoperand =>
    htag.exists_member (fun m hm => hnodes m (hbound m hm).1) hoperand
  have hoperands : ∀ operand ∈ m.operand scopeRoot column :: tag.toList,
      ∃ (m : Member) (column : String),
        m.JoinedIn scopeRoot place.1.source ∧ operand = m.operand scopeRoot column := by
    refine List.forall_mem_cons.2 ⟨⟨m, column, hjoined m hmember, rfl⟩, fun operand hoperand => ?_⟩
    obtain ⟨_, tagged, field, -, hin, -, -, hsame⟩ := htagged operand (Option.mem_toList.1 hoperand)
    exact ⟨tagged, field, hjoined tagged hin, hsame⟩
  refine ⟨fun location hrequest other hother hsame found hfound => ?_,
    fun ref href other hother hsame found hfound => ?_⟩
  · rw [h.location, Option.mem_some] at hrequest
    obtain rfl := honly hother hmember (by rw [hsame, ← hrequest, hlocation])
    rw [h.field, show schema.columnOf _ p.field = .ok column from hcolumn] at hfound
    obtain rfl := Except.ok.inj hfound
    rw [hcondition]
    exact guards_iff_mem_outerAliases hdistinct hoperands hcomparison (hjoined other hmember)
      List.mem_cons_self
  · rw [h.tag] at href
    have hgiven : tag.isSome := hsome.2 (Option.isSome_iff_exists.2 ⟨ref, href⟩)
    obtain ⟨operand, hoperand⟩ := Option.isSome_iff_exists.1 hgiven
    obtain ⟨given, tagged, field, hgiven, hin, hthere, hfield, rfl⟩ := htagged operand hoperand
    obtain rfl := Option.some.inj (hgiven.symm.trans href)
    obtain rfl := honly hother hin (hsame.trans hthere.symm)
    rw [hfield] at hfound
    obtain rfl := Except.ok.inj hfound
    rw [hcondition]
    refine guards_iff_mem_outerAliases hdistinct hoperands hcomparison (hjoined other hin) ?_
    exact List.mem_cons_of_mem _ (Option.mem_toList.2 hoperand)

/-- The filters that a query asks for stand where the conditions stand that were made from them, and
these have the tests that they need. -/
theorem paired_requests {query : Query} {target : Target} {read : Blocks} {emission : ScopeEmission}
    (hread : query.blocks = .ok read) (hassemblable : Assemblable read)
    (hemission : read.tree.emission target = .ok emission) {selects : List Sql.Select}
    (hselects : selects = Sql.plainSelects emission.ctes ++ [emission.query.select])
    (hdistinct : ∀ select ∈ selects, select.source.aliases.Nodup) :
    Paired (fun request place => request.StandsAt target.schema emission.bound selects place ∧
      request.GuardedAt target.schema emission.bound place) query.requests
      (Sql.placed selects) := by
  have hbound := QueryTree.boundBy_of_emission (ofBlocks_eq_ok_iff.2 ⟨hassemblable, rfl⟩) hemission
  rw [← hselects] at hbound
  have hnodes : ∀ m ∈ emission.bound, m.node ∈ read.tree.nodes :=
    fun m hm => hbound.nodes.subset (List.mem_map_of_mem hm)
  have hplaces : Paired (StandsFor target.schema emission.bound) (Member.asked emission.bound)
      (Sql.placed selects) := by
    rw [hselects]
    obtain ⟨root, made, later, -, hmade, -, rfl⟩ := QueryTree.exists_of_emission_eq_ok hemission
    exact places_of_emitScope hmade _
  have hmet : Paired FilterRequest.Met query.requests (read.blocks.filterMap Block.predicate?) :=
    .of_forall₂ (reading_of_blocks hread).met
  refine ((hmet.trans (Blocks.paired_asked hassemblable hbound.nodes)).trans hplaces).imp_of_mem ?_
  rintro request place hplace ⟨source, ⟨p, hmet, hsource⟩, hstands⟩
  refine ⟨hmet.standsAt hnodes hsource hstands hplace fun m hm => ?_,
    hmet.guardedAt hnodes hbound.locations hsource hstands ?_⟩
  · obtain ⟨select, hselect, -⟩ := hbound.select m hm
    exact ⟨select, hselect⟩
  · obtain ⟨select, hselect, hconditions⟩ := List.mem_flatMap.1 hplace
    obtain ⟨condition, -, rfl⟩ := List.mem_map.1 hconditions
    exact hdistinct select hselect

/-- Optional matches of a query are never made mandatory, and rows where they are missing pass the
filters.  In no select of its statement does a firm join read a table that may be missing, and the
condition of each filter tests for a missing column, its own or that of its tag, exactly if the
table of the column may be missing there. -/
theorem keeps_optional_matches {query : Query} {target : Target} {statement : Sql.Statement}
    (h : query.compile target = .ok statement) :
    (∀ select ∈ statement.selects, select.source.SparesOuter) ∧
      ∃ tree members, query.tree = .ok tree ∧ tree.members target = .ok members ∧
        ∃ places : List (Sql.Select × Sql.Expr),
          List.Forall₂ (fun request place =>
            request.StandsAt target.schema members statement.plainSelects place ∧
              request.GuardedAt target.schema members place) query.requests places ∧
          places.Perm (Sql.placed statement.plainSelects) := by
  obtain ⟨_, -, hstatement⟩ := QueryTree.exists_of_compile h
  obtain ⟨-, -, -, hdistinct⟩ := QueryTree.inOrder_of_statement hstatement
  obtain ⟨read, tree, emission, hread, hofBlocks, htree, hemission, hmembers, hctes, hbody⟩ :=
    exists_of_compile_eq_ok h
  constructor
  · intro select hselect
    have hselectDistinct := hdistinct select hselect
    obtain ⟨root, made, later, hroot, hmade, -, rfl⟩ := QueryTree.exists_of_emission_eq_ok hemission
    have hspares := sparesAfter_of_emitScope hmade (inherits_rootScope hread hofBlocks hroot)
    rw [Sql.Statement.selects, hctes, hbody] at hselect
    rcases List.mem_append.1 hselect with hselect | hselect
    · exact hspares.ctes select hselect hselectDistinct
    · obtain rfl := List.mem_singleton.1 hselect
      exact hspares.query hselectDistinct
  · obtain ⟨hassemblable, rfl⟩ := ofBlocks_eq_ok_iff.1 hofBlocks
    have hselects : statement.plainSelects =
        Sql.plainSelects emission.ctes ++ [emission.query.select] := by
      rw [Sql.Statement.plainSelects, hctes, hbody]
    obtain ⟨places, hforall, hperm⟩ := paired_requests hread hassemblable hemission hselects
      fun select hselect => hdistinct select
        (statement.selects_perm.mem_iff.2 (List.mem_append_left _ hselect))
    exact ⟨read.tree, emission.bound, htree, hmembers, places, hforall, hperm⟩

/-- Animals with an optional owner of a given name, and the site that keeps each, unless its town is
called like the owner. -/
def lodging : Pattern where
  startClass := "Animal"
  vertex := ⟨"Animal", [], [⟨"name", "animal"⟩]⟩
  branches :=
    .branch ⟨⟨"owns", .inward⟩, .optional⟩
      ⟨"Person", [⟨"name", .equal, ["$owner"], none⟩], [⟨"name", "owner"⟩]⟩ .none <|
    .branch ⟨⟨"keeps", .inward⟩, .mandatory⟩
      ⟨"Site", [⟨"town", .notEqual, [], some ⟨⟨["Animal", "in_owns"]⟩, "name"⟩⟩],
        [⟨"town", "town"⟩]⟩ .none .none

theorem keeps_optional_matches_lodging :
    ∃ statement, (ofPattern lodging).compile farm = .ok statement ∧
      statement.body.source.outerAliases = ["person_1"] ∧ statement.body.source.SparesOuter ∧
      ∃ (members : List Member) (places : List (Sql.Select × Sql.Expr)),
        List.Forall₂ (fun request place => request.GuardedAt farm.schema members place)
          (ofPattern lodging).requests places ∧
        places.Perm (Sql.placed statement.plainSelects) := by
  have houter : (((ofPattern lodging).compile farm).toOption.map fun statement =>
      statement.body.source.outerAliases) = some ["person_1"] := by cbv
  cases hstatement : (ofPattern lodging).compile farm with
  | error e =>
      rw [hstatement] at houter
      exact absurd houter (by simp [Except.toOption])
  | ok statement =>
      rw [hstatement] at houter
      obtain ⟨hspares, _, members, -, -, places, hforall, hperm⟩ :=
        keeps_optional_matches hstatement
      refine ⟨statement, rfl, Option.some.inj houter, ?_, members, places, ?_, hperm⟩
      · exact hspares _ (List.mem_append_right _ (List.mem_singleton.2 rfl))
      · exact hforall.imp fun _ _ hplace => hplace.2

end Query

end TraversalSql
