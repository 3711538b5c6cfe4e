import TraversalSql.Proofs.Grouping
import TraversalSql.Proofs.Scoping

/-!
The meaning of folds.  The edge of a fold is taken apart: the table of the fold is grouped by the
column at which the edge arrives, and is joined to the scope of the owner by the column from which
it leaves.  Each row of the scope meets one row of the fold, and that row is made of the rows which
inner joins along the same hops would put beside the row of the owner.
-/

namespace TraversalSql

open Outcome Sql.AliasSupply

/-- A fold as it is compiled: its owner, the hops that lead from there to its top vertex, the
members of its group with their conditions and outputs, and the names of its table and of the
column by which that is linked to the owner. -/
structure CompiledFold where
  owner : Member
  first : JoinHop
  rest : List JoinHop
  members : Members
  filters : List Sql.Expr
  outputs : List (NodeOutput × Sql.Expr)
  name : String
  link : String

namespace CompiledFold

variable {D : Type} [DecidableEq D] (compiled : CompiledFold)

/-- What a compiled fold adds to the scope of its owner. -/
def query (target : Target) : FoldQuery :=
  foldQuery target compiled.name compiled.link compiled.first compiled.rest compiled.members
    compiled.filters compiled.outputs

/-- The select from which the table of a compiled fold is made. -/
def select (target : Target) : Sql.Select where
  distinct := false
  items := ⟨compiled.first.inner, some compiled.link⟩ ::
    compiled.outputs.map fun (output, column) =>
      ⟨target.foldAggregate column, some output.aliasName⟩
  source := ⟨compiled.first.table,
    compiled.rest.map (JoinHop.join · .inner) ++ compiled.members.joins⟩
  filters := compiled.filters
  groupBy := [compiled.first.inner]

theorem cte_query (target : Target) :
    (compiled.query target).cte = .ofSelect compiled.name (compiled.select target) :=
  rfl

/-- The joins that lead from the owner of a fold to all vertices of the fold. -/
def joins : List Sql.Join :=
  (compiled.first :: compiled.rest).map (JoinHop.join · .inner) ++ compiled.members.joins

/-- What these joins put beside the row of the owner, as far as the filters of the fold hold. -/
def matched (session : Sql.Session D) (tables : Sql.Tables D) (environment : Sql.Environment D) :
    List (Sql.Environment D) :=
  (Sql.extendAll session tables compiled.joins environment).filter
    (Sql.holdAll session compiled.filters)

/-- A fold of a scope with some members was compiled to what is given: its hops cross the edge of
the fold from the member that owns it, and its other parts come from its own group. -/
structure CompiledFrom (target : Target) (members : Members) (fold : Group) : Prop where
  owner : members.owner fold.node = .ok compiled.owner
  bound : ∃ traversal top supply later last, fold.node.relation.edge = some traversal ∧
    JoinPath target.schema compiled.owner.vertex ⟨fold.node.typeName, top⟩ traversal supply
      (compiled.first :: compiled.rest) later ∧
    bindGroup target fold.node true fold top later = .ok (compiled.members, last)
  filters : compiled.members.filters target.schema fold.node = .ok compiled.filters
  outputs : compiled.members.outputs target.schema = .ok compiled.outputs

/-- The row of a fold in an environment that extends another one: it is missing if nothing matches
there, and otherwise it is made of the group of exactly the rows that match. -/
structure Aggregates (target : Target) (session : Sql.Session D) (tables : Sql.Tables D)
    (environment extended : Sql.Environment D) : Prop where
  missing : compiled.matched session tables environment = [] →
    extended compiled.name = Sql.Row.missing D
  grouped : compiled.matched session tables environment ≠ [] →
    ∃ group ∈ (compiled.select target).groups session tables,
      group = (compiled.matched session tables environment).map
        (Sql.Environment.only (compiled.select target).source.aliases) ∧
      extended compiled.name = (compiled.select target).rowOf
        ((compiled.select target).items.map fun item => item.expression.groupValue session group)

/-- A compiled fold can be joined to a `FROM` clause: its hops leave from a table there, and its
own aliases and its name are new. -/
structure Fits (target : Target) (source : Sql.FromClause) : Prop where
  leaves : compiled.first.outerAlias ∈ source.aliases
  arrives : compiled.first.table.aliasName = compiled.first.innerAlias
  reads : (compiled.select target).ScopedIn []
  distinct : (compiled.select target).source.aliases.Nodup
  apart : ∀ aliasName ∈ (compiled.select target).source.aliases, aliasName ∉ source.aliases
  named : compiled.name ∉ source.aliases

variable {compiled} {target : Target} {source : Sql.FromClause} {session : Sql.Session D}
  {tables : Sql.Tables D}

/-- The rows of a fold in which its key equals that of the owner are those that match. -/
theorem Fits.keptWith_eq (h : compiled.Fits target source) {environment : Sql.Environment D}
    (henvironment : environment ∈ source.environments session tables) :
    (compiled.select target).keptWith session tables compiled.first.inner
        (environment compiled.first.outerAlias compiled.first.outerColumn) =
      (compiled.matched session tables environment).map
        (Sql.Environment.only (compiled.select target).source.aliases) := by
  have hreads : ∀ e ∈ (compiled.select target).expressions, ∀ column ∈ e.columns,
      column.1 ∈ (compiled.select target).source.aliases := by
    intro e he column hcolumn
    obtain ⟨table, htable, halias, -⟩ := h.reads.readsFrom e he column hcolumn
    exact halias ▸ List.mem_map_of_mem htable
  have hkey : compiled.first.inner =
      .column (compiled.select target).source.base.aliasName compiled.first.innerColumn := by
    rw [JoinHop.inner, ← h.arrives]
    rfl
  have hjoins : compiled.joins = ⟨.inner, (compiled.select target).source.base,
      [.equals compiled.first.outer compiled.first.inner]⟩ ::
        (compiled.select target).source.joins := rfl
  rw [matched, hjoins, hkey]
  refine Sql.Select.keptWith_eq_map_only h.distinct ?joins ?filters ?unbound ?outer _ _
  case joins =>
    intro join hjoin e he
    exact hreads e (Sql.Select.mem_expressions_iff.2 (.inr (.inl ⟨join, hjoin, he⟩)))
  case filters =>
    intro e he
    exact hreads e (Sql.Select.mem_expressions_iff.2 (.inr (.inr (.inl he))))
  case unbound =>
    intro aliasName hmem
    exact Sql.FromClause.environments_of_not_mem henvironment (h.apart aliasName hmem)
  case outer => exact fun hmem => h.apart _ hmem h.leaves

/-- A fold joins one row, that of the group with the key of the owner. -/
theorem Fits.extend_join (h : compiled.Fits target source)
    (hrows : tables.named compiled.name = (compiled.select target).rows session tables)
    (environment : Sql.Environment D) :
    (compiled.query target).join.extend session tables environment =
      [environment.bind compiled.name ((compiled.select target).rowOfGroup session
        ((compiled.select target).keptWith session tables compiled.first.inner
          (environment compiled.first.outerAlias compiled.first.outerColumn)))] :=
  Sql.Join.extend_grouped rfl rfl rfl hrows (fun hsame => h.named (hsame ▸ h.leaves)) environment

/-- The row that a fold joins is made of the rows that match. -/
theorem Fits.aggregates (h : compiled.Fits target source)
    {environment extended : Sql.Environment D}
    (henvironment : environment ∈ source.environments session tables)
    (hextended : extended compiled.name = (compiled.select target).rowOfGroup session
      ((compiled.select target).keptWith session tables compiled.first.inner
        (environment compiled.first.outerAlias compiled.first.outerColumn))) :
    compiled.Aggregates target session tables environment extended := by
  have hkept := h.keptWith_eq henvironment
  refine ⟨fun hnone => ?_, fun hsome => ?_⟩
  · rw [hextended, hkept, hnone]
    rfl
  · obtain ⟨first, rest, hmatched⟩ := List.exists_cons_of_ne_nil hsome
    refine ⟨_, Sql.Select.keptWith_mem_groups rfl ?_, hkept, ?_⟩
    · rw [hkept, hmatched]
      exact List.cons_ne_nil _ _
    · rw [hextended, hkept, hmatched]
      rfl

/-- Folds that fit a `FROM` clause, under names that differ, extend each of its rows to one row. -/
theorem exists_extended {folds : List CompiledFold} (hfits : ∀ c ∈ folds, c.Fits target source)
    (hnodup : (folds.map CompiledFold.name).Nodup)
    (hrows : ∀ c ∈ folds, tables.named c.name = (c.select target).rows session tables)
    {environment : Sql.Environment D}
    (henvironment : environment ∈ source.environments session tables) :
    ∃ extended, Sql.extendAll session tables (folds.map fun c => (c.query target).join)
        environment = [extended] ∧
      (∀ aliasName, aliasName ∉ folds.map CompiledFold.name →
        extended aliasName = environment aliasName) ∧
      ∀ c ∈ folds, c.Aggregates target session tables environment extended := by
  have hnodup : (folds.map fun c => (c.query target).join.table.aliasName).Nodup := hnodup
  -- The row of a fold is found by the row of its owner, which the folds before it leave alone.
  have hstep : ∀ c ∈ folds, ∀ between : Sql.Environment D,
      (∀ aliasName, aliasName ∉ folds.map CompiledFold.name →
        between aliasName = environment aliasName) →
      (c.query target).join.extend session tables between =
        [between.bind (c.query target).join.table.aliasName
          ((c.select target).rowOfGroup session
            ((c.select target).keptWith session tables c.first.inner
              (environment c.first.outerAlias c.first.outerColumn)))] := by
    intro c hc between hsame
    have howner : c.first.outerAlias ∉ folds.map CompiledFold.name := by
      intro hmem
      obtain ⟨other, hother, hname⟩ := List.mem_map.1 hmem
      exact (hfits other hother).named (hname ▸ (hfits c hc).leaves)
    rw [(hfits c hc).extend_join (hrows c hc), hsame _ howner]
    rfl
  obtain ⟨extended, hextended, hsame, hbound⟩ := Sql.extendAll_eq_singleton hnodup
    (List.Subset.refl _) (fun _ _ => rfl) hstep
  exact ⟨extended, hextended, hsame, fun c hc =>
    (hfits c hc).aggregates henvironment (hbound c hc)⟩

end CompiledFold

/-- A fold that was emitted is a compiled one. -/
theorem FoldMade.exists_compiled {target : Target} {members : Members} {owner : Member}
    {fold : Group} {query : FoldQuery} {supply later : Sql.AliasSupply}
    (howner : members.owner fold.node = .ok owner)
    (h : FoldMade target owner fold query supply later) :
    ∃ compiled : CompiledFold, query = compiled.query target ∧ compiled.owner = owner ∧
      compiled.CompiledFrom target members fold := by
  obtain ⟨traversal, table, first, rest, below, filters, outputs, joined, bound, hedge, -, hpath,
    hbelow, hfilters, houtputs, rfl, -⟩ := h
  exact ⟨⟨owner, first, rest, below, filters, outputs, _, _⟩, rfl, rfl, howner,
    ⟨traversal, _, _, joined, bound, hedge, hpath, hbelow⟩, hfilters, houtputs⟩

/-- A fold that was emitted fits a `FROM` clause that binds its owner and none of its names. -/
theorem CompiledFold.CompiledFrom.fits {compiled : CompiledFold} {target : Target}
    {members : Members} {fold : Group} {supply later : Sql.AliasSupply}
    (hcompiled : compiled.CompiledFrom target members fold)
    (hmade : FoldMade target compiled.owner fold (compiled.query target) supply later)
    {source : Sql.FromClause} (howner : compiled.owner.aliasName ∈ source.aliases)
    (hapart : ∀ name ∈ (compiled.query target).cte.names, name ∉ source.aliases) :
    compiled.Fits target source := by
  obtain ⟨traversal, top, _, _, _, -, hpath, -⟩ := hcompiled.bound
  obtain ⟨_, _, hsame, hleaves, harrives, -⟩ := hpath.exists_first
  obtain ⟨rfl, rfl⟩ := List.cons.inj hsame
  obtain ⟨htakes, hstored⟩ := hmade.takes
  have haliases : (compiled.select target).source.aliases =
      (compiled.select target).source.storedAliases :=
    hstored _ List.mem_cons_self
  have hnames : (compiled.query target).cte.names =
      compiled.name :: (compiled.select target).source.aliases := by
    rw [compiled.cte_query, Sql.Cte.names_ofSelect, haliases]
  have hnodup := htakes.nodup
  rw [hnames] at hnodup hapart
  obtain ⟨hname, haliasesApart⟩ := List.forall_mem_cons.1 hapart
  exact {
    leaves := hleaves ▸ howner
    arrives := Sql.TableRef.aliasName_of_storedAlias? harrives
    reads := (hmade.scoped.cte []).2
    distinct := (List.nodup_cons.1 hnodup).2
    apart := haliasesApart
    named := hname }

/-- What is made from a list in the form of something else is made of a list of that. -/
theorem exists_map_of_forall₂ {α β γ : Type} {R : α → γ → Prop} {f : γ → β} {as : List α}
    {bs : List β} (h : List.Forall₂ (fun a b => ∃ c, b = f c ∧ R a c) as bs) :
    ∃ cs, bs = cs.map f ∧ List.Forall₂ R as cs := by
  induction h with
  | nil => exact ⟨[], rfl, .nil⟩
  | cons hfirst _ ih =>
      obtain ⟨c, rfl, hc⟩ := hfirst
      obtain ⟨cs, rfl, hcs⟩ := ih
      exact ⟨c :: cs, rfl, .cons hc hcs⟩

/-- A scope as it is compiled: its select and the common table expressions that stand before it,
the tables of its `FROM` clause without those of its folds, its members and its folds. -/
structure CompiledScope where
  select : Sql.Select
  before : List Sql.Cte
  plain : Sql.FromClause
  members : Members
  folds : List CompiledFold

/-- What is known of a scope that was compiled. -/
structure CompiledScope.CompiledFrom (compiled : CompiledScope) (target : Target) (scope : Scope) :
    Prop where
  /-- The folds are joined after all other tables. -/
  source : compiled.select.source = ⟨compiled.plain.base,
    compiled.plain.joins ++ compiled.folds.map fun fold => (fold.query target).join⟩
  /-- The vertices of the scope are bound by the other tables. -/
  nodes : compiled.members.bound.map Member.node = scope.group.nodes
  bound : ∀ m ∈ compiled.members.bound, ∃ table,
    target.schema.tableOf m.node.typeName = .ok table ∧
      table.reference m.aliasName ∈ compiled.plain.tables
  /-- Each fold of the scope is compiled, and its table stands before the select. -/
  folds : List.Forall₂ (fun fold compiledFold =>
    compiledFold.CompiledFrom target compiled.members fold) scope.folds compiled.folds
  tables : ∀ fold ∈ compiled.folds, (fold.query target).cte ∈ compiled.before
  /-- The select gives out the outputs of a fold as they stand in the row of the fold. -/
  outputs : ∀ fold ∈ compiled.folds, ∀ output ∈ fold.outputs,
    ⟨.column fold.name output.1.aliasName, some output.1.aliasName⟩ ∈ compiled.select.items

/-- A select reads the tables of a scope and gives out the outputs among its columns. -/
structure ScopeQuery.ExposedBy (query : ScopeQuery) (select : Sql.Select) : Prop where
  source : select.source = query.source
  outputs : ∀ column ∈ query.columns, column.isOutput → column.item ∈ select.items

theorem ScopeQuery.exposedBy_select (query : ScopeQuery) : query.ExposedBy query.select :=
  ⟨rfl, fun _ hcolumn _ => List.mem_map_of_mem hcolumn⟩

theorem BaseMade.nodup_names {target : Target} {entry : Option RecursionEntry} {group : Group}
    {folds : List Group} {members : Members} {emission : ScopeEmission}
    {supply later : Sql.AliasSupply}
    (h : BaseMade target entry group folds members emission supply later)
    (hentry : ∀ e ∈ entry, ∃ earlier, Issued earlier supply e.table) {plain : Sql.FromClause}
    (htables : emission.query.source.tables =
      plain.tables ++ emission.ctes.map fun cte => Sql.TableRef.cte cte.name none) :
    (plain.aliases ++ emission.ctes.flatMap Sql.Cte.names).Nodup := by
  obtain ⟨stored, aliases, folded, hsame, hctes, hstored, htakes, -⟩ := h.tables
  rw [htables, hctes, List.map_map] at hsame
  have hplain := List.append_cancel_right hsame
  have htakes : supply.Takes (aliases ++ emission.ctes.flatMap Sql.Cte.names) later := by
    rw [hctes, List.flatMap_map]
    exact htakes.toTakes
  rw [Sql.FromClause.aliases, hplain, List.map_append, hstored.map_aliasName, List.append_assoc]
  cases entry with
  | none => exact htakes.nodup
  | some e =>
      obtain ⟨earlier, hissued⟩ := hentry e rfl
      exact htakes.nodup_cons hissued

/-- A scope without its recursions that was emitted is a compiled one, and its folds fit its other
tables. -/
theorem BaseMade.exists_compiled {target : Target} {entry : Option RecursionEntry} {scope : Scope}
    {members : Members} {emission : ScopeEmission} {supply later : Sql.AliasSupply}
    (h : BaseMade target entry scope.group scope.folds members emission supply later)
    (hentry : ∀ e ∈ entry, ∃ earlier, Issued earlier supply e.table) {before : List Sql.Cte}
    (hbefore : emission.ctes ⊆ before) {select : Sql.Select}
    (hselect : emission.query.ExposedBy select) :
    ∃ compiled : CompiledScope, compiled.select = select ∧ compiled.before = before ∧
      compiled.CompiledFrom target scope ∧ (compiled.folds.map CompiledFold.name).Nodup ∧
      ∀ fold ∈ compiled.folds, fold.Fits target compiled.plain := by
  obtain ⟨table, start, outputs, folded, filters, bound, -, -, hmembers, -, hfolded, -, rfl⟩ := id h
  obtain ⟨bindings, -, hnodes, -⟩ := exists_bindings_of_bindGroup _ hmembers
  have heach : List.Forall₂ (fun fold query => ∃ compiled : CompiledFold,
      query = compiled.query target ∧ compiled.CompiledFrom target members fold ∧
        ∃ supply later, FoldMade target compiled.owner fold (compiled.query target) supply later)
      scope.folds folded := by
    refine hfolded.forall₂.imp ?_
    rintro fold query ⟨supply, later, owner, howner, hmade⟩
    obtain ⟨compiled, rfl, rfl, hcompiled⟩ := hmade.exists_compiled howner
    exact ⟨compiled, rfl, hcompiled, supply, later, hmade⟩
  obtain ⟨compiled, rfl, hcompiled⟩ := exists_map_of_forall₂ heach
  have htables : (baseEmission entry start members outputs (compiled.map (·.query target))
        filters).query.source.tables =
      (Sql.FromClause.mk start.base (start.joins ++ members.joins)).tables ++
        compiled.map fun fold => Sql.TableRef.cte fold.name none := by
    rw [tables_baseEmission, List.map_map]
    simp [Sql.FromClause.tables, Function.comp_def, CompiledFold.query, foldQuery]
  have hbound : ∀ m ∈ members.bound, ∃ table,
      target.schema.tableOf m.node.typeName = .ok table ∧ table.reference m.aliasName ∈
        (Sql.FromClause.mk start.base (start.joins ++ members.joins)).tables := by
    intro m hm
    obtain ⟨table, htable, hmem⟩ := h.boundIn_select m hm
    refine ⟨table, htable, ?_⟩
    rw [ScopeQuery.select, htables, List.mem_append] at hmem
    refine hmem.resolve_right fun hfold => ?_
    obtain ⟨fold, -, hreference⟩ := List.mem_map.1 hfold
    exact absurd hreference (by simp [Table.reference])
  have hnodup : ((Sql.FromClause.mk start.base (start.joins ++ members.joins)).aliases ++
      compiled.flatMap fun fold => (fold.query target).cte.names).Nodup := by
    have hnames := h.nodup_names hentry (htables.trans (by
      rw [baseEmission, List.map_map, List.map_map]
      rfl))
    rwa [baseEmission, List.map_map, List.flatMap_map] at hnames
  obtain ⟨-, hfolds, hapart⟩ := List.nodup_append'.1 hnodup
  refine ⟨⟨select, before, ⟨start.base, start.joins ++ members.joins⟩, members, compiled⟩, rfl, rfl,
    ⟨?_, hnodes, hbound, hcompiled.imp fun _ _ hfrom => hfrom.1, fun fold hfold => ?_,
      fun fold hfold output houtput => ?_⟩, ?_, fun fold hfold => ?_⟩
  · simp [hselect.source, baseEmission, Function.comp_def]
  · exact hbefore (List.mem_map_of_mem (List.mem_map_of_mem hfold))
  · refine hselect.outputs (.ofOutput output.1 (.column fold.name output.1.aliasName)) ?_ rfl
    refine List.mem_append_right _ (List.mem_flatMap.2 ⟨_, List.mem_map_of_mem hfold, ?_⟩)
    exact List.mem_map_of_mem houtput
  · exact (map_sublist_flatMap fun _ _ => List.mem_cons_self).nodup hfolds
  · obtain ⟨source, -, hfrom, supply, later, hmade⟩ := exists_left_of_forall₂ hcompiled hfold
    obtain ⟨table, -, howner⟩ := hbound _ (Members.mem_bound_of_owner hfrom.owner)
    exact hfrom.fits hmade (List.mem_map_of_mem howner) fun name hname hmem =>
      hapart hmem (List.mem_flatMap.2 ⟨fold, hfold, hname⟩)

/-- An emission, closed by a select over its tables, holds the select of a scope right after the
tables of the folds of that scope. -/
def ScopeEmission.Holds (emission : ScopeEmission) (target : Target) (scope : Scope) : Prop :=
  ∃ entry members base supply later,
    (∀ e ∈ entry, ∃ earlier, Issued earlier supply e.table) ∧
    BaseMade target entry scope.group scope.folds members base supply later ∧
    ∀ (name : String) (last : Sql.Select), emission.query.ExposedBy last →
      ∃ before own select after, base.query.ExposedBy select ∧
        emission.ctes ++ [.ofSelect name last] =
          before ++ base.ctes ++ Sql.Cte.ofSelect own select :: after

/-- An emitted scope holds the selects of all scopes within it, if the table that feeds it was named
before. -/
def HoldsAfter (target : Target) (root : Scope) (entry : Option RecursionEntry)
    (emission : ScopeEmission) (supply _ : Sql.AliasSupply) : Prop :=
  (∀ e ∈ entry, ∃ earlier, Issued earlier supply e.table) →
    ∀ scope, Scope.Within root scope → emission.Holds target scope

/-- The tables of an attached recursion hold what its scope holds. -/
theorem AttachedMade.exists_holds {target : Target} {scopeRoot : Node} {scopeCte : String}
    {source : Scope × String} {attached : AttachedRecursion} {supply later : Sql.AliasSupply}
    (h : AttachedMade target (HoldsAfter target) scopeRoot scopeCte source attached supply later)
    {scope : Scope} (hwithin : Scope.Within source.1 scope) :
    ∃ (table : Sql.Cte) (name : String) (emission : ScopeEmission),
      attached.ctes = table :: (emission.ctes ++ [.ofSelect name emission.query.select]) ∧
        emission.Holds target scope := by
  obtain ⟨table, entry, emission, walked, bound, htable, hscope, rfl, -⟩ := h
  obtain ⟨htakes, hname, -⟩ := htable.takes
  refine ⟨table, _, emission, rfl, hscope ?_ scope hwithin⟩
  intro e he
  obtain rfl := Option.some.inj he
  exact ⟨supply, hname ▸ htakes.issued table.name List.mem_cons_self⟩

/-- Every emitted scope holds the selects of all scopes within it. -/
theorem holdsAfter_of_emitScope {target : Target} {root : Scope} {entry : Option RecursionEntry}
    {emission : ScopeEmission} {supply later : Sql.AliasSupply}
    (h : emitScope target root entry supply = .ok (emission, later)) :
    HoldsAfter target root entry emission supply later := by
  refine emitScope_induction (motive := HoldsAfter target) ?plain ?wrapped root h
  case plain =>
    intro group folds entry members base supply later hbase hentry scope hwithin
    obtain rfl := hwithin.eq_of_recursions_eq_nil rfl
    exact ⟨entry, members, base, supply, later, hentry, hbase, fun name last hlast =>
      ⟨[], name, last, [], hlast, rfl⟩⟩
  case wrapped =>
    intro group folds recursions entry members base links attached supply based linked later _ hbase
      hlinks hattached hentry scope hwithin
    rcases hwithin.eq_or_exists with rfl | ⟨recursion, hrecursion, hwithin⟩
    · refine ⟨entry, members, base, supply, based, hentry, hbase, fun name last _ => ?_⟩
      refine ⟨[], (linked.nextCte .scope).1,
        ({ base.query with columns := base.query.columns ++ links } : ScopeQuery).select,
        attached.flatMap AttachedRecursion.ctes ++ [.ofSelect name last], ⟨rfl, ?_⟩, ?_⟩
      · exact fun _ hcolumn _ => List.mem_map_of_mem (List.mem_append_left _ hcolumn)
      · simp [wrappedEmission]
    · -- The select of a scope further within stands among the tables of its recursion.
      rw [← map_fst_zip_of_linksMade hlinks] at hrecursion
      obtain ⟨source, hsource, rfl⟩ := List.mem_map.1 hrecursion
      obtain ⟨made, hmem, _, _, hmade⟩ := exists_right_of_forall₂ hattached.forall₂ hsource
      obtain ⟨table, name, emission, hctes, hholds⟩ := hmade.exists_holds hwithin
      obtain ⟨entry', members', base', supply', later', hentry', hbase', hplaced⟩ := hholds
      obtain ⟨before, own, select, after, hselect, hsplit⟩ :=
        hplaced name emission.query.select emission.query.exposedBy_select
      obtain ⟨front, back, rfl⟩ := List.append_of_mem hmem
      refine ⟨entry', members', base', supply', later', hentry', hbase', fun final last _ => ?_⟩
      refine ⟨base.ctes ++ Sql.Cte.ofSelect (linked.nextCte .scope).1
          ({ base.query with columns := base.query.columns ++ links } : ScopeQuery).select ::
            (front.flatMap AttachedRecursion.ctes ++ table :: before), own, select,
        after ++ back.flatMap AttachedRecursion.ctes ++ [.ofSelect final last], hselect, ?_⟩
      simp [wrappedEmission, hctes, hsplit]

/-- A select of a statement stands after some common table expressions: it belongs to the one that
follows them, or it is the body. -/
def Sql.Statement.StandsAfter (statement : Statement) (select : Select) (before : List Cte) :
    Prop :=
  (before = statement.ctes ∧ select = statement.body) ∨
    ∃ name after, statement.ctes = before ++ Cte.ofSelect name select :: after

theorem Sql.Statement.StandsAfter.isPrefix {statement : Statement} {select : Select}
    {before : List Cte} (h : statement.StandsAfter select before) : before <+: statement.ctes := by
  rcases h with ⟨rfl, -⟩ | ⟨name, after, hsplit⟩
  · exact List.prefix_rfl
  · exact ⟨_, hsplit.symm⟩

theorem Sql.Statement.standsAfter_of_eq_append {statement : Statement} {name own : String}
    {select : Select} {before after : List Cte}
    (h : statement.ctes ++ [.ofSelect name statement.body] =
      before ++ Cte.ofSelect own select :: after) : statement.StandsAfter select before := by
  rcases List.eq_nil_or_concat after with rfl | ⟨others, last, rfl⟩
  · obtain ⟨hctes, hlast⟩ := List.append_inj' h rfl
    obtain ⟨-, rfl⟩ : name = own ∧ statement.body = select := by
      simpa [Cte.ofSelect] using hlast
    exact .inl ⟨hctes.symm, rfl⟩
  · rw [List.concat_eq_append, ← List.cons_append, ← List.append_assoc] at h
    exact .inr ⟨own, others, (List.append_inj' h rfl).1⟩

namespace QueryTree

variable {tree : QueryTree} {target : Target} {statement : Sql.Statement}

/-- Each scope of a tree is compiled to a select of its statement, to which its folds fit. -/
theorem exists_compiledScope (h : tree.statement target = .ok statement) {root scope : Scope}
    (hroot : tree.rootScope? = some root) (hwithin : Scope.Within root scope) :
    ∃ compiled : CompiledScope, statement.StandsAfter compiled.select compiled.before ∧
      compiled.CompiledFrom target scope ∧ (compiled.folds.map CompiledFold.name).Nodup ∧
      ∀ fold ∈ compiled.folds, fold.Fits target compiled.plain := by
  obtain ⟨emission, hemission, hctes, hbody⟩ := exists_of_statement_eq_ok h
  obtain ⟨found, made, later, hfound, hmade, -, rfl⟩ := exists_of_emission_eq_ok hemission
  obtain rfl := Option.some.inj (hroot.symm.trans hfound)
  obtain ⟨entry, members, base, supply, last, hentry, hbase, hplaced⟩ :=
    holdsAfter_of_emitScope hmade (by simp) scope hwithin
  have hexposed : made.query.ExposedBy statement.body := by
    rw [hbody]
    refine ⟨rfl, fun column hcolumn houtput => List.mem_map_of_mem ?_⟩
    exact mem_sortedOutputs_iff.2 ⟨hcolumn, houtput⟩
  obtain ⟨before, own, select, after, hselect, hsplit⟩ := hplaced "" statement.body hexposed
  obtain ⟨compiled, rfl, hbefore, hcompiled⟩ := hbase.exists_compiled hentry
    (List.subset_append_right before base.ctes) hselect
  refine ⟨compiled, ?_, hcompiled⟩
  rw [hbefore]
  apply Sql.Statement.standsAfter_of_eq_append
  rw [hctes]
  exact hsplit

/-- Where a select stands, the tables of the folds before it hold the rows of their selects. -/
theorem named_fold (h : tree.statement target = .ok statement) {select : Sql.Select}
    {before : List Sql.Cte} (hstands : statement.StandsAfter select before)
    {fold : CompiledFold} (hfold : (fold.query target).cte ∈ before)
    (hreads : (fold.select target).ScopedIn []) {D : Type} [DecidableEq D]
    {session : Sql.Session D} {start tables : Sql.Tables D}
    (htables : Sql.CtesDenote session start before tables) :
    tables.named fold.name = (fold.select target).rows session tables := by
  obtain ⟨-, -, hnames, -⟩ := inOrder_of_statement h
  have hnodup : (before.map Sql.Cte.name).Nodup :=
    (hstands.isPrefix.sublist.map _).nodup (List.nodup_append'.1 hnames).1
  obtain ⟨seen, hseen, hdenotes⟩ := htables.exists_denotes hnodup hfold
  have hstored : seen.stored = tables.stored := hseen.trans htables.stored_eq.symm
  have hrows : tables.named fold.name = (fold.select target).rows session seen := by
    generalize hnamed : tables.named (fold.query target).cte.name = rows at hdenotes
    cases hdenotes with
    | select => exact hnamed
  rw [hrows]
  exact Sql.Select.rows_congr fun table htable => (hreads.tables table htable).rows_eq hstored

/-- Folds neither drop, multiply nor mix the rows of their scope.  The rows of its `FROM` clause are
those of the clause without the folds, each of them extended once.  The row of a fold by which one
is extended is made of exactly the rows that inner joins along the hops of the fold put beside it,
and is missing if there are none. -/
theorem folds_extend_rows_once (h : tree.statement target = .ok statement) {root scope : Scope}
    (hroot : tree.rootScope? = some root) (hwithin : Scope.Within root scope) :
    ∃ compiled : CompiledScope, statement.StandsAfter compiled.select compiled.before ∧
      compiled.CompiledFrom target scope ∧
      ∀ (D : Type) [DecidableEq D] (session : Sql.Session D) (stored : Sql.Stored D)
        (tables : Sql.Tables D),
        Sql.CtesDenote session ⟨stored, fun _ => []⟩ compiled.before tables →
        ∃ extend : Sql.Environment D → Sql.Environment D,
          compiled.select.source.environments session tables =
            (compiled.plain.environments session tables).map extend ∧
          ∀ environment ∈ compiled.plain.environments session tables,
            (∀ aliasName ∈ compiled.plain.aliases,
              extend environment aliasName = environment aliasName) ∧
            ∀ fold ∈ compiled.folds,
              fold.Aggregates target session tables environment (extend environment) := by
  obtain ⟨compiled, hstands, hcompiled, hnodup, hfits⟩ := exists_compiledScope h hroot hwithin
  refine ⟨compiled, hstands, hcompiled, fun D _ session stored tables htables => ?_⟩
  have hrows : ∀ fold ∈ compiled.folds,
      tables.named fold.name = (fold.select target).rows session tables := fun fold hfold =>
    named_fold h hstands (hcompiled.tables fold hfold) (hfits fold hfold).reads htables
  have hextended := fun environment
      (henvironment : environment ∈ compiled.plain.environments session tables) =>
    CompiledFold.exists_extended hfits hnodup hrows henvironment
  choose! extend hextend using hextended
  refine ⟨extend, ?_, fun environment henvironment => ?_⟩
  · rw [hcompiled.source, Sql.FromClause.environments_append,
      List.flatMap_congr fun environment henvironment => (hextend environment henvironment).1]
    exact List.map_eq_flatMap.symm
  · obtain ⟨-, hsame, haggregates⟩ := hextend environment henvironment
    refine ⟨fun aliasName halias => hsame aliasName fun hmem => ?_, haggregates⟩
    obtain ⟨fold, hfold, rfl⟩ := List.mem_map.1 hmem
    exact (hfits fold hfold).named halias

/-- Animals with the towns of the sites that keep them, and with their offspring of little weight
and the owners of these. -/
def household : Pattern where
  startClass := "Animal"
  vertex := ⟨"Animal", [], [⟨"name", "animal"⟩]⟩
  branches :=
    .branch ⟨⟨"keeps", .inward⟩, .fold⟩
      ⟨"Site", [⟨"town", .notEqual, ["$town"], none⟩], [⟨"town", "towns"⟩]⟩ .none <|
    .branch ⟨⟨"child", .outward⟩, .fold⟩
      ⟨"Animal", [⟨"weight", .less, ["$limit"], none⟩], [⟨"name", "young"⟩]⟩
      (.branch ⟨⟨"owns", .inward⟩, .mandatory⟩ ⟨"Person", [], [⟨"name", "owners"⟩]⟩ .none .none)
      .none

theorem folds_extend_rows_once_household :
    ∃ statement root, household.tree.statement Query.farm = .ok statement ∧
      household.tree.rootScope? = some root ∧ root.folds.length = 2 ∧
      ∃ compiled : CompiledScope, compiled.CompiledFrom Query.farm root ∧
        ∀ (session : Sql.Session String) (stored : Sql.Stored String), ∃ tables extend,
          Sql.CtesDenote session ⟨stored, fun _ => []⟩ compiled.before tables ∧
          compiled.select.source.environments session tables =
            (compiled.plain.environments session tables).map extend ∧
          ∀ environment ∈ compiled.plain.environments session tables,
            ∀ fold ∈ compiled.folds,
              fold.Aggregates Query.farm session tables environment (extend environment) := by
  have hplain : ((household.tree.statement Query.farm).map fun statement =>
      statement.ctes.all fun cte => cte.plain?.isSome) = .ok true := by cbv
  have hfolds : household.tree.rootScope?.map (fun root => root.folds.length) = some 2 := by cbv
  obtain ⟨root, hroot, hlength⟩ := Option.map_eq_some_iff.1 hfolds
  cases hstatement : household.tree.statement Query.farm with
  | error e =>
      rw [hstatement] at hplain
      exact absurd hplain (by simp [Except.map])
  | ok statement =>
      rw [hstatement] at hplain
      have hplain := List.all_eq_true.1 (Except.ok.inj hplain)
      obtain ⟨compiled, hstands, hcompiled, hrows⟩ :=
        folds_extend_rows_once hstatement hroot .refl
      refine ⟨statement, root, rfl, hroot, hlength, compiled, hcompiled, fun session stored => ?_⟩
      obtain ⟨tables, htables⟩ := Sql.CtesDenote.exists_of_plain
        (fun cte hcte => hplain cte (hstands.isPrefix.subset hcte)) ⟨stored, fun _ => []⟩
      obtain ⟨extend, hextend, heach⟩ := hrows String session stored tables htables
      exact ⟨tables, extend, htables, hextend, fun environment henvironment =>
        (heach environment henvironment).2⟩

end QueryTree

end TraversalSql
