import TraversalSql.Proofs.ColumnNames
import TraversalSql.Proofs.Condition
import TraversalSql.Proofs.Pattern
import TraversalSql.Proofs.Reading

/-!
Where the outputs of a query come from.  A column is followed through the common table expressions
that expose it, down to a column of a stored table; each output ends at the field of its vertex,
and passes an aggregate exactly if the vertex is folded.
-/

namespace TraversalSql

open Outcome Sql.AliasSupply

/-- A column of a stored table, under the alias that the table has where it is read, and the number
of aggregates that collect it on the way. -/
structure Sql.Origin where
  aliasName : String
  column : String
  aggregates : Nat
deriving DecidableEq, Repr

/-- An expression over the tables of a `FROM` clause comes from a column of a stored table.  A
column of a common table expression is what stands there under its name, and the aggregate of a
fold is followed to what it collects. -/
inductive ComesFrom (target : Target) (ctes : List Sql.Cte) :
    Sql.FromClause → Sql.Expr → Sql.Origin → Prop
  | stored {source : Sql.FromClause} {qualifier : Option String} {name aliasName column : String}
      (htable : Sql.TableRef.table qualifier name aliasName ∈ source.tables) :
      ComesFrom target ctes source (.column aliasName column) ⟨aliasName, column, 0⟩
  | exposed {source : Sql.FromClause} {cte : Sql.Cte} {rename : Option String}
      {aliasName column : String} {select : Sql.Select} {item : Sql.SelectItem}
      {origin : Sql.Origin} (htable : Sql.TableRef.cte cte.name rename ∈ source.tables)
      (halias : (Sql.TableRef.cte cte.name rename).aliasName = aliasName) (hcte : cte ∈ ctes)
      (hselect : cte.plain? = some select) (hitem : item ∈ select.items)
      (hname : item.aliasName = some column)
      (horigin : ComesFrom target ctes select.source item.expression origin) :
      ComesFrom target ctes source (.column aliasName column) origin
  | collected {source : Sql.FromClause} {e : Sql.Expr} {origin : Sql.Origin}
      (horigin : ComesFrom target ctes source e origin) :
      ComesFrom target ctes source (target.foldAggregate e)
        { origin with aggregates := origin.aggregates + 1 }

namespace ComesFrom

variable {target : Target} {ctes : List Sql.Cte} {source : Sql.FromClause} {e : Sql.Expr}

theorem mono {origin : Sql.Origin} (h : ComesFrom target ctes source e origin)
    {more : List Sql.Cte} (hmore : ctes ⊆ more) : ComesFrom target more source e origin := by
  induction h with
  | stored htable => exact .stored htable
  | exposed htable halias hcte hselect hitem hname _ ih =>
      exact .exposed htable halias (hmore hcte) hselect hitem hname ih
  | collected _ ih => exact .collected ih

/-- Where no name is ambiguous, an expression comes from one column only. -/
theorem unique (hnames : (ctes.map Sql.Cte.name).Nodup)
    (hsources : ∀ select ∈ Sql.plainSelects ctes, select.source.aliases.Nodup)
    (hitems : ∀ select ∈ Sql.plainSelects ctes, (select.items.map Sql.SelectItem.aliasName).Nodup)
    (hsource : source.aliases.Nodup) {origin other : Sql.Origin}
    (h : ComesFrom target ctes source e origin) (hother : ComesFrom target ctes source e other) :
    origin = other := by
  induction h generalizing other with
  | @stored source qualifier name aliasName column htable =>
      cases hother with
      | stored _ => rfl
      | exposed htable' halias' _ _ _ _ _ =>
          have := List.inj_on_of_nodup_map hsource htable htable' halias'.symm
          exact absurd this (by simp)
  | @exposed source cte rename aliasName column select item origin htable halias hcte hselect hitem
      hname _ ih =>
      cases hother with
      | stored htable' =>
          have := List.inj_on_of_nodup_map hsource htable htable' halias
          exact absurd this (by simp)
      | @exposed _ cte' rename' _ _ select' item' _ htable' halias' hcte' hselect' hitem' hname'
          horigin' =>
          have htables := List.inj_on_of_nodup_map hsource htable htable'
            (halias.trans halias'.symm)
          obtain rfl := List.inj_on_of_nodup_map hnames hcte hcte' (Sql.TableRef.cte.inj htables).1
          obtain rfl := Option.some.inj (hselect.symm.trans hselect')
          have hplain : select ∈ Sql.plainSelects ctes := List.mem_filterMap.2 ⟨cte, hcte, hselect⟩
          obtain rfl := List.inj_on_of_nodup_map (hitems select hplain) hitem hitem'
            (hname.trans hname'.symm)
          exact ih (hsources select hplain) horigin'
  | collected _ ih =>
      cases hother with
      | collected horigin' => rw [ih hsource horigin']

end ComesFrom

namespace Scope

/-- A vertex that a scope joins, or the scope of a recursion below it. -/
def Joins (root : Scope) (node : Node) : Prop :=
  ∃ scope, Within root scope ∧ node ∈ scope.group.nodes

/-- A vertex that a scope folds, or the scope of a recursion below it. -/
def Collects (root : Scope) (node : Node) : Prop :=
  ∃ scope, Within root scope ∧ ∃ fold ∈ scope.folds, node ∈ fold.nodes

theorem Within.of_recursion {root recursion scope : Scope}
    (hrecursion : recursion ∈ root.recursions) (h : Within recursion scope) :
    Within root scope := by
  induction h with
  | refl => exact .recursion .refl hrecursion
  | recursion _ hbelow ih => exact .recursion ih hbelow

end Scope

/-- A column stands for an output of a vertex: the field that it has under a name. -/
def Member.Gives (m : Member) (schema : Schema) (column : ScopeColumn) (index : Nat)
    (name : String) : Prop :=
  ∃ output ∈ m.node.outputs, output.index = index ∧ output.aliasName = column.aliasName ∧
    schema.columnOf m.node.typeName output.field = .ok name

/-- If a column is an output, it comes from the field of a vertex of the scope, through one
aggregate where the vertex is folded and through none where it is joined. -/
def ScopeColumn.Traced (column : ScopeColumn) (target : Target) (ctes : List Sql.Cte)
    (source : Sql.FromClause) (scope : Scope) (bound : List Member) : Prop :=
  ∀ index ∈ column.index, ∃ m ∈ bound, ∃ name aggregates,
    m.Gives target.schema column index name ∧
    (scope.Joins m.node ∧ aggregates = 0 ∨ scope.Collects m.node ∧ aggregates = 1) ∧
    ComesFrom target ctes source column.expression ⟨m.aliasName, name, aggregates⟩

namespace ScopeColumn.Traced

variable {column : ScopeColumn} {target : Target} {ctes : List Sql.Cte} {source : Sql.FromClause}
  {scope : Scope} {bound : List Member}

theorem mono (h : column.Traced target ctes source scope bound) {more : List Sql.Cte}
    (hmore : ctes ⊆ more) {others : List Member} (hothers : bound ⊆ others) :
    column.Traced target more source scope others := by
  intro index hindex
  obtain ⟨m, hm, name, aggregates, hgives, hplace, horigin⟩ := h index hindex
  exact ⟨m, hothers hm, name, aggregates, hgives, hplace, horigin.mono hmore⟩

theorem of_recursion {recursion : Scope} (h : column.Traced target ctes source recursion bound)
    (hrecursion : recursion ∈ scope.recursions) :
    column.Traced target ctes source scope bound := by
  intro index hindex
  obtain ⟨m, hm, name, aggregates, hgives, hplace, horigin⟩ := h index hindex
  refine ⟨m, hm, name, aggregates, hgives, ?_, horigin⟩
  rcases hplace with ⟨⟨inner, hwithin, hmem⟩, hnone⟩ | ⟨⟨inner, hwithin, hmem⟩, hone⟩
  · exact .inl ⟨⟨inner, hwithin.of_recursion hrecursion, hmem⟩, hnone⟩
  · exact .inr ⟨⟨inner, hwithin.of_recursion hrecursion, hmem⟩, hone⟩

/-- What is read from a common table expression comes from what stands there. -/
theorem readFrom (query : ScopeQuery) (h : column.Traced target ctes query.source scope bound)
    (hcolumn : column ∈ query.columns) {name : String}
    (hcte : Sql.Cte.ofSelect name query.select ∈ ctes)
    (htable : Sql.TableRef.cte name none ∈ source.tables) :
    (column.readFrom name).Traced target ctes source scope bound := by
  intro index hindex
  obtain ⟨m, hm, field, aggregates, hgives, hplace, horigin⟩ := h index hindex
  refine ⟨m, hm, field, aggregates, hgives, hplace, ?_⟩
  exact .exposed htable rfl hcte rfl (List.mem_map_of_mem hcolumn) rfl horigin

end ScopeColumn.Traced

/-- The outputs of a fold come from its vertices, through one aggregate. -/
theorem FoldMade.traced {target : Target} {owner : Member} {fold : Group} {query : FoldQuery}
    {supply later : Sql.AliasSupply} (h : FoldMade target owner fold query supply later)
    {source : Sql.FromClause} (htable : query.join.table ∈ source.tables) (scope : Scope)
    (hfold : fold ∈ scope.folds) {c : ScopeColumn} (hc : c ∈ query.columns) :
    c.Traced target [query.cte] source scope query.bound := by
  have hnodes := h.binds.nodes
  obtain ⟨select, hselect, hbound⟩ := h.binds.select
  rw [h.join_table] at htable
  obtain ⟨traversal, table, first, rest, members, filters, outputs, joined, bound, -, -, -, -, -,
    houtputs, rfl, -⟩ := h
  obtain ⟨⟨output, expression⟩, hmem, rfl⟩ := List.mem_map.1 hc
  rintro index hindex
  obtain rfl : output.index = index := Option.some.inj hindex
  obtain ⟨m, hm, houtput, name, hname, rfl⟩ := Members.exists_of_mem_outputs houtputs hmem
  have hnode : m.node ∈ fold.nodes := hnodes ▸ List.mem_map_of_mem hm
  refine ⟨m, hm, name, 1, ⟨output, houtput, rfl, rfl, hname⟩,
    .inr ⟨⟨scope, .refl, fold, hfold, hnode⟩, rfl⟩, ?_⟩
  obtain ⟨found, -, hfound⟩ := hbound m hm
  obtain rfl := Option.some.inj hselect
  refine .exposed htable rfl (List.mem_singleton.2 rfl) rfl
    (List.mem_cons_of_mem _ (List.mem_map_of_mem hmem)) rfl ?_
  exact .collected (.stored hfound)

/-- The outputs of a scope without its recursions come from the vertices that it joins or folds. -/
theorem BaseMade.traced {target : Target} {entry : Option RecursionEntry} {group : Group}
    {folds : List Group} {members : Members} {emission : ScopeEmission}
    {supply later : Sql.AliasSupply}
    (hmade : BaseMade target entry group folds members emission supply later)
    (recursions : List Scope) :
    ∀ c ∈ emission.query.columns, c.Traced target emission.ctes emission.query.source
      (.mk group folds recursions) emission.bound := by
  have hbound := hmade.boundIn_select
  obtain ⟨table, start, outputs, folded, filters, bound, -, -, hmembers, houtputs, hfolded, -,
    rfl⟩ := id hmade
  obtain ⟨bindings, -, hnodes, -⟩ := exists_bindings_of_bindGroup _ hmembers
  intro c hc
  rcases mem_columns_baseEmission_iff.1 hc with
    hc | ⟨⟨output, expression⟩, hmem, rfl⟩ | ⟨query, hquery, hc⟩
  · -- The column that links the scope is no output.
    intro index hindex
    cases entry with
    | none => exact absurd hc List.not_mem_nil
    | some entry =>
        obtain rfl := List.mem_singleton.1 hc
        exact absurd hindex (by simp [ScopeColumn.link])
  · intro index hindex
    obtain rfl : output.index = index := Option.some.inj hindex
    obtain ⟨m, hm, houtput, name, hname, rfl⟩ := Members.exists_of_mem_outputs houtputs hmem
    have hnode : m.node ∈ group.nodes := hnodes ▸ List.mem_map_of_mem hm
    obtain ⟨found, -, hfound⟩ := hbound m hm
    exact ⟨m, List.mem_append_left _ hm, name, 0, ⟨output, houtput, rfl, rfl, hname⟩,
      .inl ⟨⟨_, .refl, hnode⟩, rfl⟩, .stored hfound⟩
  · obtain ⟨fold, hfold, _, _, owner, -, hfoldMade⟩ := hfolded.exists_of_mem hquery
    have htable : query.join.table ∈
        (baseEmission entry start members outputs folded filters).query.source.tables := by
      rw [tables_baseEmission]
      exact List.mem_append_right _ (List.mem_map_of_mem hquery)
    refine (hfoldMade.traced htable (.mk group folds recursions) hfold hc).mono ?_ ?_
    · intro cte hcte
      rw [List.mem_singleton.1 hcte]
      exact List.mem_map_of_mem hquery
    · intro m hm
      exact List.mem_append_right _ (List.mem_flatMap.2 ⟨query, hquery, hm⟩)

/-- All columns of an emission are traced. -/
def TracedAll (target : Target) (scope : Scope) (_ : Option RecursionEntry)
    (emission : ScopeEmission) (_ _ : Sql.AliasSupply) : Prop :=
  ∀ c ∈ emission.query.columns,
    c.Traced target emission.ctes emission.query.source scope emission.bound

/-- The outputs of an attached recursion come from the vertices of its scope. -/
theorem AttachedMade.traced {target : Target} {scopeRoot : Node} {scopeCte : String}
    {source : Scope × String} {attached : AttachedRecursion} {supply later : Sql.AliasSupply}
    (h : AttachedMade target (TracedAll target) scopeRoot scopeCte source attached supply later)
    {tables : Sql.FromClause} (htable : attached.join.table ∈ tables.tables) {c : ScopeColumn}
    (hc : c ∈ attached.columns) :
    c.Traced target attached.ctes tables source.1 attached.bound := by
  obtain ⟨table, entry, emission, walked, bound, -, htraced, rfl, rfl⟩ := h
  obtain ⟨column, hcolumn, rfl⟩ := List.mem_map.1 hc
  have hcolumn := (List.mem_filter.1 hcolumn).1
  have hctes : emission.ctes ⊆ (attach scopeRoot scopeCte source.1.node source.2 table
      (bound.nextCte .scope).1 emission).ctes := by
    intro cte hcte
    exact mem_ctes_attach_iff.2 (.inr (.inl hcte))
  exact ((htraced column hcolumn).mono hctes (List.Subset.refl _)).readFrom emission.query hcolumn
    (mem_ctes_attach_iff.2 (.inr (.inr rfl))) htable

/-- The outputs of a scope with its recursions come from the vertices of the scope, through the
table that the scope becomes, or from those of a recursion. -/
theorem BaseMade.traced_wrapped {target : Target} {entry : Option RecursionEntry} {group : Group}
    {folds : List Group} {recursions : List Scope} {members : Members} {base : ScopeEmission}
    {links : List ScopeColumn} {attached : List AttachedRecursion}
    {supply based linked later : Sql.AliasSupply}
    (hbase : BaseMade target entry group folds members base supply based)
    (hlinks : Steps (LinkMade target members) recursions links based linked)
    (hattached : Steps (AttachedMade target (TracedAll target) group.node
      (linked.nextCte .scope).1)
      (recursions.zip (links.map ScopeColumn.aliasName)) attached (linked.nextCte .scope).2 later) :
    TracedAll target (.mk group folds recursions) entry
      (wrappedEmission entry base links (linked.nextCte .scope).1 attached) supply later := by
  intro c hc
  rcases mem_columns_wrappedEmission_iff.1 hc with
    ⟨column, hcolumn, rfl⟩ | ⟨recursion, hrecursion, hc⟩
  · have hcolumn := (List.mem_filter.1 hcolumn).1
    have htraced : column.Traced target base.ctes base.query.source
        (.mk group folds recursions) base.bound := by
      rcases List.mem_append.1 hcolumn with hcolumn | hcolumn
      · exact hbase.traced recursions column hcolumn
      · -- A link is no output, so nothing is asked of it.
        obtain ⟨_, -, _, _, _, _, _, -, -, -, -, rfl, -⟩ := hlinks.exists_of_mem hcolumn
        intro index hindex
        exact absurd hindex (by simp [ScopeColumn.link])
    have hctes : base.ctes ⊆
        (wrappedEmission entry base links (linked.nextCte .scope).1 attached).ctes :=
      fun _ hcte => mem_ctes_wrappedEmission_iff.2 (.inl hcte)
    have hbound : base.bound ⊆
        (wrappedEmission entry base links (linked.nextCte .scope).1 attached).bound :=
      fun m hm => List.mem_append_left _ hm
    have hscope : Sql.Cte.ofSelect (linked.nextCte .scope).1
        ({ base.query with columns := base.query.columns ++ links } : ScopeQuery).select ∈
          (wrappedEmission entry base links (linked.nextCte .scope).1 attached).ctes :=
      mem_ctes_wrappedEmission_iff.2 (.inr (.inl rfl))
    exact (htraced.mono hctes hbound).readFrom
      { base.query with columns := base.query.columns ++ links } hcolumn hscope
      List.mem_cons_self
  · obtain ⟨source, hsource, _, _, hmade⟩ := hattached.exists_of_mem hrecursion
    have htable : recursion.join.table ∈ (wrappedEmission entry base links
        (linked.nextCte .scope).1 attached).query.source.tables :=
      List.mem_cons_of_mem _ (List.mem_map_of_mem (List.mem_map_of_mem hrecursion))
    have htraced : c.Traced target recursion.ctes (wrappedEmission entry base links
        (linked.nextCte .scope).1 attached).query.source (.mk group folds recursions)
        recursion.bound :=
      (hmade.traced htable hc).of_recursion (List.of_mem_zip hsource).1
    refine htraced.mono ?_ ?_
    · intro cte hcte
      exact mem_ctes_wrappedEmission_iff.2 (.inr (.inr ⟨recursion, hrecursion, hcte⟩))
    · intro m hm
      exact List.mem_append_right _ (List.mem_flatMap.2 ⟨recursion, hrecursion, hm⟩)

/-- Every output of an emitted scope comes from the vertex that gives it out. -/
theorem tracedAll_of_emitScope {target : Target} {scope : Scope} {entry : Option RecursionEntry}
    {emission : ScopeEmission} {supply later : Sql.AliasSupply}
    (h : emitScope target scope entry supply = .ok (emission, later)) :
    TracedAll target scope entry emission supply later := by
  refine emitScope_induction (motive := TracedAll target) ?plain ?wrapped scope h
  case plain =>
    intro group folds entry members base supply later hbase
    exact hbase.traced []
  case wrapped =>
    intro group folds recursions entry members base links attached supply based linked later _ hbase
      hlinks hattached
    exact hbase.traced_wrapped hlinks hattached

theorem RelationKind.not_isFold_of_isRecursion {kind : RelationKind} (h : kind.isRecursion) :
    ¬ kind.isFold := by
  cases kind <;> simp_all [RelationKind.isRecursion, RelationKind.isFold]

theorem RelationKind.not_isFold_of_isTraverse {kind : RelationKind} (h : kind.isTraverse) :
    ¬ kind.isFold := by
  cases kind <;> simp_all [RelationKind.isTraverse, RelationKind.isFold]

/-- A vertex of a tree is folded, or lies below one that is. -/
inductive QueryTree.Folded (tree : QueryTree) : Node → Prop
  | here {node : Node} (hkind : node.relation.kind.isFold) : Folded tree node
  | inside {above node : Node} (habove : above ∈ tree.nodes)
      (hparent : node.parent = some above.id) (hfolded : Folded tree above) : Folded tree node

namespace Scope

variable {nodes : List Node} {root : Scope} {node : Node}

theorem Joins.mem (h : root.Joins node) (harranged : Arranged nodes)
    (hroot : root ∈ QueryTree.scopes nodes) : node ∈ nodes := by
  obtain ⟨scope, hwithin, hnode⟩ := h
  exact (cutFrom_of_mem_scopes harranged (hwithin.mem_scopes harranged hroot)).mem node hnode

/-- A vertex that is joined is the root, or hangs off a joined vertex without a fold. -/
theorem Joins.eq_node_or_exists (h : root.Joins node) (harranged : Arranged nodes)
    (hroot : root ∈ QueryTree.scopes nodes) :
    node = root.node ∨ ¬ node.relation.kind.isFold ∧
      ∃ above, root.Joins above ∧ node.parent = some above.id := by
  obtain ⟨scope, hwithin, hnode⟩ := h
  have hcut := cutFrom_of_mem_scopes harranged (hwithin.mem_scopes harranged hroot)
  refine scope.group.forall_nodes (P := fun node => node = root.node ∨
    ¬ node.relation.kind.isFold ∧ ∃ above, root.Joins above ∧ node.parent = some above.id) ?_ ?_
    node hnode
  · cases hwithin with
    | refl => exact .inl rfl
    | @recursion above recursion hwithin hrecursion =>
        have habove := cutFrom_of_mem_scopes harranged (hwithin.mem_scopes harranged hroot)
        obtain ⟨hkind, -, owner, howner, hparent⟩ := habove.recursions scope hrecursion
        exact .inr ⟨RelationKind.not_isFold_of_isRecursion hkind, owner,
          ⟨above, hwithin, howner⟩, hparent⟩
  · intro above habove below hhangs _
    obtain ⟨hparent, hkind⟩ := hcut.hangs above below hhangs
    exact .inr ⟨RelationKind.not_isFold_of_isTraverse hkind, above, ⟨scope, hwithin, habove⟩,
      hparent⟩

end Scope

namespace QueryTree

variable {tree : QueryTree} {root : Scope} {node : Node}

/-- What the scope of the root joins is not folded. -/
theorem not_folded_of_joins (harranged : Arranged tree.nodes) (hroot : tree.rootScope? = some root)
    (hkind : ¬ root.node.relation.kind.isFold) (h : root.Joins node) : ¬ tree.Folded node := by
  obtain ⟨later, hnodes, hscope⟩ := rootScope?_eq_some hroot
  intro hfolded
  -- Upwards from a joined vertex all are joined, so the fold would have to be the root.
  induction hfolded with
  | here hfold =>
      rcases h.eq_node_or_exists harranged hscope with rfl | ⟨hnot, -⟩
      · exact hkind hfold
      · exact hnot hfold
  | @inside above node habove hparent _ ih =>
      rcases h.eq_node_or_exists harranged hscope with rfl | ⟨-, owner, howner, hsame⟩
      · rw [hnodes] at harranged habove
        exact harranged.2.1 above.id hparent (List.mem_map_of_mem habove)
      · have hid : above.id = owner.id := Option.some.inj (hparent.symm.trans hsame)
        have howner' := howner.mem harranged hscope
        obtain rfl := List.inj_on_of_nodup_map harranged.distinct habove howner' hid
        exact ih howner

/-- What the scope of the root collects is folded. -/
theorem folded_of_collects (harranged : Arranged tree.nodes) (hroot : tree.rootScope? = some root)
    (h : root.Collects node) : tree.Folded node := by
  obtain ⟨later, hnodes, hscope⟩ := rootScope?_eq_some hroot
  obtain ⟨scope, hwithin, fold, hfold, hnode⟩ := h
  have hcut := Scope.cutFrom_of_mem_scopes harranged (hwithin.mem_scopes harranged hscope)
  obtain ⟨hkind, ⟨owner, howner, rfl⟩, -⟩ := hcut.folds fold hfold
  have hgroup := Scope.cutFrom_of_mem_scopes harranged howner
  refine owner.group.forall_nodes (.here hkind) ?_ node hnode
  intro above habove below hhangs habove'
  exact .inside (hgroup.mem above habove) (hgroup.hangs above below hhangs).1 habove'

end QueryTree

/-- The common table expressions of an emitted scope are found by their names, and so are the
columns of each, if no two outputs have the same name and none is reserved. -/
theorem ComesFrom.unique_of_emitScope {target : Target} {scope : Scope} {emission : ScopeEmission}
    {later : Sql.AliasSupply} (h : emitScope target scope none .fresh = .ok (emission, later))
    (hdistinct : (outputNames emission.query.columns).Nodup)
    (hplain : ∀ name ∈ outputNames emission.query.columns, ¬ Sql.Reserved name) {e : Sql.Expr}
    {origin other : Sql.Origin}
    (horigin : ComesFrom target emission.ctes emission.query.source e origin)
    (hother : ComesFrom target emission.ctes emission.query.source e other) : origin = other := by
  have hnamed := named_of_emitScope h (by simp)
  have hexposes := (exposes_of_emitScope h).2 (by simp)
  refine ComesFrom.unique ?_ ?_ ?_ hnamed.source horigin hother
  · have hnames := hnamed.takes.nodup
    rw [List.nodup_append'] at hnames
    exact (map_sublist_flatMap fun _ _ => List.mem_cons_self).nodup hnames.1
  · intro select hselect
    obtain ⟨cte, hcte, hplain⟩ := List.mem_filterMap.1 hselect
    apply hnamed.sources cte hcte
    rw [Sql.Cte.selects_of_plain? hplain]
    exact List.mem_cons_self
  · intro select hselect
    exact (hexposes.selects select hselect).nodup hdistinct hplain

/-- A column that stands for an output of a query, by its name and by where it comes from. -/
def QueryTree.Provides (tree : QueryTree) (target : Target) (emission : ScopeEmission)
    (output : String × FieldRef) (column : ScopeColumn) : Prop :=
  column.aliasName = output.1 ∧ ∃ m ∈ emission.bound, ∃ name aggregates,
    m.node.location = output.2.location ∧
    target.schema.columnOf m.node.typeName output.2.field = .ok name ∧
    (tree.Folded m.node ∧ aggregates = 1 ∨ ¬ tree.Folded m.node ∧ aggregates = 0) ∧
    ComesFrom target emission.ctes emission.query.source column.expression
      ⟨m.aliasName, name, aggregates⟩

/-- The columns of the last select stand for the outputs of the query, in order. -/
theorem QueryTree.forall₂_provides {read : Blocks} {target : Target} {emission : ScopeEmission}
    (hread : Assemblable read) (hkind : ∀ relation ∈ read.relations.head?, relation.kind = .root)
    (h : read.tree.emission target = .ok emission) :
    List.Forall₂ (read.tree.Provides target emission) read.outputs emission.query.columns := by
  have hbound := QueryTree.boundBy_of_emission (ofBlocks_eq_ok_iff.2 ⟨hread, rfl⟩) h
  obtain ⟨root, made, later, hroot, hmade, hcomplete, rfl⟩ := QueryTree.exists_of_emission_eq_ok h
  have harranged := (Blocks.rooted_tree hread.planted).arranged
  have htop : ¬ root.node.relation.kind.isFold := by
    obtain ⟨relation, hrelation, hnode⟩ := Blocks.exists_first_of_rootScope? hroot
    have hroot : root.node.relation.kind = .root := hnode ▸ hkind relation hrelation
    rw [hroot]
    exact Bool.false_ne_true
  refine QueryTree.forall₂_of_isComplete hcomplete rfl ?_
  intro column hcolumn index hindex
  rw [QueryTree.mem_sortedOutputs_iff] at hcolumn
  obtain ⟨m, hm, name, aggregates, ⟨output, houtput, rfl, hname, hfield⟩, hplace, horigin⟩ :=
    tracedAll_of_emitScope hmade column hcolumn.1 index hindex
  have hnode : m.node ∈ read.tree.nodes := hbound.nodes.subset (List.mem_map_of_mem hm)
  obtain ⟨source, hget, hsame, hlocation⟩ := Blocks.exists_source_of_mem_outputs hnode houtput
  refine ⟨_, hget, hname.symm, m, hm, name, aggregates, hlocation, hsame ▸ hfield, ?_, horigin⟩
  rcases hplace with ⟨hjoins, hnone⟩ | ⟨hcollects, hone⟩
  · exact .inr ⟨QueryTree.not_folded_of_joins harranged hroot htop hjoins, hnone⟩
  · exact .inl ⟨QueryTree.folded_of_collects harranged hroot hcollects, hone⟩

namespace Query

/-- The columns of the statement of a query are its outputs in order.  Each, followed through the
common table expressions, ends at the column of its field under the alias of its vertex, and
passes one aggregate if the vertex lies in a fold and none otherwise. -/
theorem comesFrom_outputs {query : Query} {target : Target} {statement : Sql.Statement}
    (h : query.compile target = .ok statement) (hdistinct : (query.outputs.map Prod.fst).Nodup)
    (hplain : ∀ output ∈ query.outputs, ¬ Sql.Reserved output.1) :
    statement.outputColumns = query.outputs.map Prod.fst ∧
      ∃ tree members, query.tree = .ok tree ∧ tree.members target = .ok members ∧
        tree.BoundBy target.schema statement.plainSelects members ∧
        List.Forall₂ (fun output item => ∃ m ∈ members, ∃ column aggregates,
          m.node.location = output.2.location ∧
          query.types.typeName? output.2.location = some m.node.typeName ∧
          target.schema.columnOf m.node.typeName output.2.field = .ok column ∧
          (tree.Folded m.node ∧ aggregates = 1 ∨ ¬ tree.Folded m.node ∧ aggregates = 0) ∧
          ∀ origin, ComesFrom target statement.ctes statement.body.source item.expression origin ↔
            origin = ⟨m.aliasName, column, aggregates⟩)
          query.outputs statement.body.items := by
  obtain ⟨read, tree, emission, hblocks, hofBlocks, htree, hemission, hmembers, hctes, hbody⟩ :=
    exists_of_compile_eq_ok h
  have hbound := QueryTree.boundBy_of_emission hofBlocks hemission
  obtain ⟨hassemblable, rfl⟩ := ofBlocks_eq_ok_iff.1 hofBlocks
  have hreading := reading_of_blocks hblocks
  have houtputs : read.outputs = query.outputs := hreading.outputs_eq
  have hprovides := QueryTree.forall₂_provides hassemblable (first_kind_of_blocks hblocks) hemission
  rw [houtputs] at hprovides
  have hnames : emission.query.columns.map ScopeColumn.aliasName = query.outputs.map Prod.fst := by
    rw [← List.forall₂_eq_eq_eq, List.forall₂_map_left_iff, List.forall₂_map_right_iff]
    exact (hprovides.imp fun _ _ hprovides => hprovides.1).flip
  have hunique : ∀ {e : Sql.Expr} {origin other : Sql.Origin},
      ComesFrom target emission.ctes emission.query.source e origin →
        ComesFrom target emission.ctes emission.query.source e other → origin = other := by
    obtain ⟨root, made, later, -, hmade, -, rfl⟩ := QueryTree.exists_of_emission_eq_ok hemission
    have hperm : (outputNames made.query.columns).Perm (query.outputs.map Prod.fst) := by
      rw [← hnames]
      exact (List.mergeSort_perm _ _).symm.map _
    apply ComesFrom.unique_of_emitScope hmade (hperm.nodup_iff.2 hdistinct)
    intro name hname
    obtain ⟨output, houtput, rfl⟩ := List.mem_map.1 (hperm.mem_iff.1 hname)
    exact hplain output houtput
  refine ⟨?_, read.tree, emission.bound, htree, hmembers, ?_, ?_⟩
  · rw [← hnames, Sql.Statement.outputColumns, hbody, ScopeQuery.select, List.filterMap_map]
    exact congrFun List.filterMap_eq_map emission.query.columns
  · rw [Sql.Statement.plainSelects, hctes, hbody]
    exact hbound
  · rw [hctes, hbody, ScopeQuery.select, List.forall₂_map_right_iff]
    refine hprovides.imp ?_
    rintro output column ⟨-, m, hm, name, aggregates, hlocation, hcolumn, hfolded, horigin⟩
    refine ⟨m, hm, name, aggregates, hlocation, ?_, hcolumn, hfolded, fun origin => ?_⟩
    · have hnode : m.node ∈ read.tree.nodes := hbound.nodes.subset (List.mem_map_of_mem hm)
      obtain ⟨place, relation, hrelation, hsame⟩ := Blocks.mem_nodes_tree_iff.1 hnode
      rw [← hlocation, hsame]
      exact hreading.typeName relation (List.mem_of_getElem? hrelation)
    · constructor
      · intro hother
        exact hunique hother horigin
      · rintro rfl
        exact horigin

/-- Animals with their parents, the persons that own them and the sites that keep them. -/
def farm : Target where
  dialect := .postgresql
  schema := {
    tables := .ofList [
      ("animal", ⟨"animal", none, ["id", "name", "weight", "parent_id", "owner_id"], ["id"], []⟩),
      ("person", ⟨"person", none, ["id", "name", "age"], ["id"], []⟩),
      ("site", ⟨"site", some "estate", ["id", "city"], ["id"], []⟩),
      ("housing", ⟨"housing", none, ["animal_id", "site_id"], [], []⟩)]
    vertexTypes := .ofList [
      ("Animal", ⟨some "animal", .empty,
        .ofList [("child", ⟨"Animal", .direct ⟨"id", "parent_id", none⟩⟩)]⟩),
      ("Person", ⟨some "person", .empty,
        .ofList [("owns", ⟨"Animal", .direct ⟨"id", "owner_id", none⟩⟩)]⟩),
      ("Site", ⟨some "site", .ofList [("town", "city")], .ofList [("keeps", ⟨"Animal",
        .junction ⟨"id", "site_id", some "housing"⟩ ⟨"animal_id", "id", none⟩⟩)]⟩)] }
  maxRecursionDepth := 10
  combinator := none

/-- Animals of given names with an optional owner, the ancestors of each up to three steps back
with the sites that keep those, and all offspring of little weight. -/
def pedigree : Pattern where
  startClass := "Animal"
  vertex := ⟨"Animal", [⟨"name", .inCollection, ["$names"], none⟩], [⟨"name", "animal"⟩]⟩
  branches :=
    .branch ⟨⟨"owns", .inward⟩, .optional⟩ ⟨"Person", [], [⟨"name", "owner"⟩]⟩ .none <|
    .branch ⟨⟨"child", .inward⟩, .recurse 3⟩ ⟨"Animal", [], [⟨"name", "ancestor"⟩]⟩
      (.branch ⟨⟨"keeps", .inward⟩, .mandatory⟩
        ⟨"Site", [⟨"town", .notEqual, [], some ⟨⟨["Animal", "in_child"]⟩, "name"⟩⟩],
          [⟨"town", "town"⟩]⟩ .none .none) <|
    .branch ⟨⟨"child", .outward⟩, .fold⟩
      ⟨"Animal", [⟨"weight", .less, ["$limit"], none⟩], [⟨"name", "young"⟩]⟩ .none .none

def ofPattern (pattern : Pattern) : Query := ⟨pattern.stream, pattern.types⟩

theorem exists_compile_pedigree :
    ∃ statement, (ofPattern pedigree).compile farm = .ok statement := by
  have hok : ((ofPattern pedigree).compile farm).isOk = true := by cbv
  exact exists_of_isOk hok

theorem comesFrom_outputs_pedigree :
    ∃ statement, (ofPattern pedigree).compile farm = .ok statement ∧
      statement.outputColumns = ["animal", "owner", "ancestor", "town", "young"] ∧
      ∃ members : List Member, List.Forall₂ (fun output item => ∃ m ∈ members, ∃ column aggregates,
        m.node.location = output.2.location ∧
        ∀ origin, ComesFrom farm statement.ctes statement.body.source item.expression origin ↔
          origin = ⟨m.aliasName, column, aggregates⟩)
        (ofPattern pedigree).outputs statement.body.items := by
  obtain ⟨statement, hstatement⟩ := exists_compile_pedigree
  obtain ⟨hcolumns, tree, members, -, -, -, horigins⟩ :=
    comesFrom_outputs hstatement (by decide) (by decide)
  refine ⟨statement, hstatement, hcolumns, members, horigins.imp ?_⟩
  rintro output item ⟨m, hm, column, aggregates, hlocation, -, -, -, horigin⟩
  exact ⟨m, hm, column, aggregates, hlocation, horigin⟩

end Query

end TraversalSql
