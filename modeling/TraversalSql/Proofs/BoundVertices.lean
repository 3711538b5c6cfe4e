import TraversalSql.Compile
import TraversalSql.Proofs.Naming

/-!
Where the vertices of a query are bound.  Each vertex has one alias, no two vertices have the same,
and the alias stands for the table of the type of the vertex in the `FROM` clause of one select.
-/

namespace TraversalSql

open Outcome Sql.AliasSupply

namespace Sql

def Cte.plain? (cte : Cte) : Option Select :=
  match cte.content with
  | .select query => some query
  | .recursive _ _ _ => none

/-- The selects of common table expressions that are not recursive. -/
def plainSelects (ctes : List Cte) : List Select := ctes.filterMap Cte.plain?

/-- The selects of a statement outside its recursive tables; the last one is its body. -/
def Statement.plainSelects (statement : Statement) : List Select :=
  Sql.plainSelects statement.ctes ++ [statement.body]

end Sql

/-- A vertex is bound in a select: its alias stands for the table of its type. -/
def Member.BoundIn (member : Member) (schema : Schema) (select : Sql.Select) : Prop :=
  ∃ table, schema.tableOf member.node.typeName = .ok table ∧
    table.reference member.aliasName ∈ select.source.tables

theorem Member.BoundIn.mem_storedAliases {member : Member} {schema : Schema} {select : Sql.Select}
    (h : member.BoundIn schema select) : member.aliasName ∈ select.source.storedAliases := by
  obtain ⟨table, -, hmem⟩ := h
  exact List.mem_filterMap.2 ⟨_, hmem, rfl⟩

theorem JoinPath.exists_reference {schema : Schema} {outer inner : BoundVertex}
    {traversal : Traversal} {hops : List JoinHop} {supply later : Sql.AliasSupply}
    (h : JoinPath schema outer inner traversal supply hops later) :
    ∃ table, schema.tableOf inner.typeName = .ok table ∧
      table.reference inner.aliasName ∈ hops.map JoinHop.table := by
  cases h with
  | direct _ htable => exact ⟨_, htable, by simp⟩
  | junction _ _ htable => exact ⟨_, htable, by simp⟩

theorem Bindings.made_of_mem {target : Target} {known : List Member} {bindings : List Binding}
    {supply later : Sql.AliasSupply} (h : Bindings target known bindings supply later)
    {b : Binding} (hb : b ∈ bindings) : ∃ supply later, b.Made target supply later := by
  induction h with
  | nil => exact absurd hb List.not_mem_nil
  | cons _ hmade _ ih =>
      rcases List.mem_cons.1 hb with rfl | hb
      · exact ⟨_, _, hmade⟩
      · exact ih hb

namespace Members.MadeBy

variable {members : Members} {target : Target} {scopeRoot : Node} {top : Member}
  {bindings : List Binding} {supply later : Sql.AliasSupply}

/-- A member that is not on top is joined. -/
theorem eq_top_or_exists_reference (h : members.MadeBy target scopeRoot [top] bindings supply later)
    {m : Member} (hm : m ∈ members.bound) :
    m = top ∨ ∃ table, target.schema.tableOf m.node.typeName = .ok table ∧
      table.reference m.aliasName ∈ members.joins.map Sql.Join.table := by
  rcases List.mem_append.1 (h.bound.mem_iff.1 hm) with hm | hm
  · exact .inl (List.mem_singleton.1 hm)
  · obtain ⟨b, hb, rfl⟩ := List.mem_map.1 hm
    obtain ⟨_, _, traversal, table, -, -, -, hpath⟩ := h.made.made_of_mem hb
    obtain ⟨found, hfound, hmem⟩ := hpath.exists_reference
    refine .inr ⟨found, hfound, ?_⟩
    obtain ⟨hop, hhop, htable⟩ := List.mem_map.1 hmem
    rw [h.joins, List.map_flatMap]
    refine List.mem_flatMap.2 ⟨b, hb, ?_⟩
    rw [Binding.joins, List.map_map]
    exact List.mem_map.2 ⟨hop, hhop, htable⟩

/-- The aliases of the members are taken once. -/
theorem takes_bound (h : members.MadeBy target scopeRoot [top] bindings supply later)
    {earlier : Sql.AliasSupply} (htop : earlier.Takes [top.aliasName] supply) :
    earlier.Takes (members.bound.map Member.aliasName) later := by
  have hall := htop.append h.made.takes.toTakes
  apply hall.subperm
  refine (h.bound.map _).subperm.trans ?_
  rw [List.map_append]
  exact ((List.Sublist.refl _).append h.made.aliases_children_sublist).subperm

end Members.MadeBy

/-- What is known of the vertices that a fold binds. -/
structure FoldQuery.Binds (query : FoldQuery) (schema : Schema) (fold : Group)
    (supply later : Sql.AliasSupply) : Prop where
  nodes : query.bound.map Member.node = fold.nodes
  unnested : ∀ node ∈ fold.nodes, node.recursions = [] ∧ node.folds = []
  takes : supply.Takes (query.bound.map Member.aliasName) later
  select : ∃ select, query.cte.plain? = some select ∧ ∀ m ∈ query.bound, m.BoundIn schema select

/-- The vertices of a fold are bound in its select. -/
theorem FoldMade.binds {target : Target} {owner : Member} {fold : Group} {query : FoldQuery}
    {supply later : Sql.AliasSupply} (h : FoldMade target owner fold query supply later) :
    query.Binds target.schema fold supply later := by
  obtain ⟨traversal, table, first, rest, members, filters, outputs, joined, bound, -, -, hpath,
    hmembers, -, -, rfl, rfl⟩ := h
  obtain ⟨bindings, hbindings, hnodes, -, hnesting⟩ := exists_bindings_of_bindGroup _ hmembers
  obtain ⟨passed, -, hpassed⟩ := hpath.takes
  refine ⟨hnodes, fun node hnode => checkNesting_eq_ok_iff.1 (hnesting node hnode) rfl, ?_,
    ⟨_, rfl, fun m hm => ?_⟩⟩
  · have htop := (Takes.nextAlias supply table.name).mono (.refl _) hpassed.before
    exact (hbindings.takes_bound htop).mono (.refl _)
      ((before_next bound _).trans (before_nextFoldLink _))
  · unfold Member.BoundIn
    simp only [tables_fold]
    rcases hbindings.eq_top_or_exists_reference hm with rfl | ⟨table, htable, hmem⟩
    · obtain ⟨found, hfound, hmem⟩ := hpath.exists_reference
      exact ⟨found, hfound, List.mem_append_left _ hmem⟩
    · exact ⟨table, htable, List.mem_append_right _ hmem⟩

theorem Steps.flatMap_eq {α β γ : Type} {made : α → β → Sql.AliasSupply → Sql.AliasSupply → Prop}
    {as : List α} {bs : List β} {supply later : Sql.AliasSupply} (h : Steps made as bs supply later)
    {f : α → List γ} {g : β → List γ}
    (hmade : ∀ a b supply later, made a b supply later → g b = f a) :
    bs.flatMap g = as.flatMap f := by
  induction h with
  | nil => rfl
  | cons hfirst _ ih => rw [List.flatMap_cons, List.flatMap_cons, hmade _ _ _ _ hfirst, ih]

theorem Scope.Within.eq_or_exists {root scope : Scope} (h : Within root scope) :
    scope = root ∨ ∃ recursion ∈ root.recursions, Within recursion scope := by
  induction h with
  | refl => exact .inl rfl
  | @recursion scope recursion _ hrecursion ih =>
      rcases ih with rfl | ⟨above, habove, hwithin⟩
      · exact .inr ⟨recursion, hrecursion, .refl⟩
      · exact .inr ⟨above, habove, .recursion hwithin hrecursion⟩

theorem Scope.Within.eq_of_recursions_eq_nil {root scope : Scope} (h : Within root scope)
    (hnone : root.recursions = []) : scope = root := by
  rcases h.eq_or_exists with rfl | ⟨recursion, hrecursion, -⟩
  · rfl
  · rw [hnone] at hrecursion
    exact absurd hrecursion List.not_mem_nil

/-- What is known of the vertices that an emission binds. -/
structure ScopeEmission.Binds (emission : ScopeEmission) (schema : Schema) (scope : Scope)
    (supply later : Sql.AliasSupply) : Prop where
  nodes : emission.bound.map Member.node = scope.nodes
  unnested : scope.Unnested
  takes : supply.Takes (emission.bound.map Member.aliasName) later
  boundIn : ∀ m ∈ emission.bound,
    ∃ select ∈ Sql.plainSelects emission.ctes ++ [emission.query.select], m.BoundIn schema select

/-- The vertices that a scope joins are bound in its select. -/
theorem BaseMade.boundIn_select {target : Target} {entry : Option RecursionEntry} {group : Group}
    {folds : List Group} {members : Members} {emission : ScopeEmission}
    {supply later : Sql.AliasSupply}
    (h : BaseMade target entry group folds members emission supply later) :
    ∀ m ∈ members.bound, m.BoundIn target.schema emission.query.select := by
  obtain ⟨table, start, outputs, folded, filters, bound, htable, hstart, hmembers, -, -, -, rfl⟩ :=
    h
  obtain ⟨bindings, hbindings, -⟩ := exists_bindings_of_bindGroup _ hmembers
  intro m hm
  have htables := tables_baseEmission entry start members outputs folded filters
  rw [tables_of_scopeSource hstart, List.append_assoc, List.append_assoc] at htables
  rcases hbindings.eq_top_or_exists_reference hm with rfl | ⟨table, htable, hmem⟩
  · refine ⟨table, htable, ?_⟩
    rw [ScopeQuery.select, htables]
    exact List.mem_append_right _ List.mem_cons_self
  · refine ⟨table, htable, ?_⟩
    rw [ScopeQuery.select, htables]
    exact List.mem_append_right _ (List.mem_append_right _ (List.mem_append_left _ hmem))

/-- The vertices of a scope without its recursions are bound in its select and in those of its
folds. -/
theorem BaseMade.binds {target : Target} {entry : Option RecursionEntry} {group : Group}
    {folds : List Group} {members : Members} {emission : ScopeEmission}
    {supply later : Sql.AliasSupply}
    (hmade : BaseMade target entry group folds members emission supply later) :
    emission.Binds target.schema (.mk group folds []) supply later := by
  obtain ⟨table, start, outputs, folded, filters, bound, -, -, hmembers, -, hfolded, -, rfl⟩ :=
    id hmade
  obtain ⟨bindings, hbindings, hnodes, -⟩ := exists_bindings_of_bindGroup _ hmembers
  refine ⟨?_, ?_, ?_, ?_⟩
  · have hfolds : (folded.flatMap FoldQuery.bound).map Member.node = folds.flatMap Group.nodes := by
      rw [List.map_flatMap]
      exact hfolded.flatMap_eq fun _ _ _ _ ⟨_, _, hmade⟩ => hmade.binds.nodes
    rw [baseEmission, List.map_append, hnodes, hfolds, Scope.nodes, Scope.nodesOfAll,
      List.append_nil]
  · intro scope hwithin fold hfold
    obtain rfl := hwithin.eq_of_recursions_eq_nil rfl
    obtain ⟨query, -, _, _, owner, -, hmade⟩ := exists_right_of_forall₂ hfolded.forall₂ hfold
    exact hmade.binds.unnested
  · have htop := Takes.nextAlias supply table.name
    have hfolds := hfolded.takes (fun query => query.bound.map Member.aliasName)
      fun _ _ _ _ ⟨_, _, hmade⟩ => hmade.binds.takes
    rw [baseEmission, List.map_append, List.map_flatMap]
    exact (hbindings.takes_bound htop).append hfolds
  · intro m hm
    rcases List.mem_append.1 hm with hm | hm
    · exact ⟨_, List.mem_append_right _ (List.mem_singleton.2 rfl), hmade.boundIn_select m hm⟩
    · obtain ⟨query, hquery, hm⟩ := List.mem_flatMap.1 hm
      obtain ⟨fold, -, _, _, owner, -, hmade⟩ := hfolded.exists_of_mem hquery
      obtain ⟨select, hselect, hbound⟩ := hmade.binds.select
      refine ⟨select, List.mem_append_left _ ?_, hbound m hm⟩
      exact List.mem_filterMap.2 ⟨query.cte, List.mem_map_of_mem hquery, hselect⟩

theorem Sql.plainSelects_append (ctes others : List Cte) :
    plainSelects (ctes ++ others) = plainSelects ctes ++ plainSelects others :=
  List.filterMap_append

/-- The selects of an attached recursion are those of its scope; its table is recursive. -/
theorem TableMade.plainSelects_attach {target : Target} {scopeCte link : String} {recursion : Node}
    {table : Sql.Cte} {entry : RecursionEntry} {supply later : Sql.AliasSupply}
    (h : TableMade target scopeCte link recursion table entry supply later) (scopeRoot : Node)
    (name : String) (emission : ScopeEmission) :
    Sql.plainSelects (attach scopeRoot scopeCte recursion link table name emission).ctes =
      Sql.plainSelects emission.ctes ++ [emission.query.select] := by
  obtain ⟨walk, step, combinator, -, -, -, rfl, -⟩ := h
  rw [attach, Sql.plainSelects_append]
  rfl

/-- An attached recursion binds what its scope binds. -/
theorem AttachedMade.exists_emission {target : Target}
    {emitted : Scope → Option RecursionEntry → ScopeEmission → Sql.AliasSupply →
      Sql.AliasSupply → Prop} {scopeRoot : Node} {scopeCte : String} {source : Scope × String}
    {attached : AttachedRecursion} {supply later : Sql.AliasSupply}
    (h : AttachedMade target emitted scopeRoot scopeCte source attached supply later) :
    ∃ entry emission walked bound, supply.Before walked ∧ bound.Before later ∧
      emitted source.1 (some entry) emission walked bound ∧
      Sql.plainSelects attached.ctes =
        Sql.plainSelects emission.ctes ++ [emission.query.select] ∧
      attached.bound = emission.bound := by
  obtain ⟨table, entry, emission, walked, bound, htable, hscope, rfl, rfl⟩ := h
  exact ⟨entry, emission, walked, bound, htable.takes.1.before, before_next _ _, hscope,
    htable.plainSelects_attach _ _ _, rfl⟩

theorem plainSelects_wrappedEmission (entry : Option RecursionEntry) (base : ScopeEmission)
    (links : List ScopeColumn) (scopeCte : String) (attached : List AttachedRecursion) :
    Sql.plainSelects (wrappedEmission entry base links scopeCte attached).ctes =
      Sql.plainSelects base.ctes ++
        [({ base.query with columns := base.query.columns ++ links } : ScopeQuery).select] ++
        attached.flatMap fun recursion => Sql.plainSelects recursion.ctes := by
  rw [wrappedEmission, Sql.plainSelects_append, Sql.plainSelects_append]
  simp [Sql.plainSelects, Sql.Cte.plain?, Sql.Cte.ofSelect, List.filterMap_flatMap]

/-- Each recursion has its link. -/
theorem map_fst_zip_of_linksMade {target : Target} {members : Members} {recursions : List Scope}
    {links : List ScopeColumn} {supply later : Sql.AliasSupply}
    (h : Steps (LinkMade target members) recursions links supply later) :
    (recursions.zip (links.map ScopeColumn.aliasName)).map Prod.fst = recursions := by
  apply List.map_fst_zip
  rw [List.length_map]
  exact Nat.le_of_eq h.forall₂.length_eq

/-- The vertices of a scope with its recursions. -/
theorem BaseMade.binds_wrapped {target : Target} {entry : Option RecursionEntry} {group : Group}
    {folds : List Group} {recursions : List Scope} {members : Members} {base : ScopeEmission}
    {links : List ScopeColumn} {attached : List AttachedRecursion}
    {supply based linked later : Sql.AliasSupply}
    (hbase : BaseMade target entry group folds members base supply based)
    (hlinks : Steps (LinkMade target members) recursions links based linked)
    (hattached : Steps (AttachedMade target
      (fun scope _ emission supply later => emission.Binds target.schema scope supply later)
      group.node (linked.nextCte .scope).1)
      (recursions.zip (links.map ScopeColumn.aliasName)) attached (linked.nextCte .scope).2 later) :
    (wrappedEmission entry base links (linked.nextCte .scope).1 attached).Binds target.schema
      (.mk group folds recursions) supply later := by
  obtain ⟨hnodes, hunnested, htakes, hbound⟩ := hbase.binds
  obtain ⟨hbefore, -, -⟩ := linkNames_of_linksMade hlinks
  have hfirst := map_fst_zip_of_linksMade hlinks
  refine ⟨?_, ?_, ?_, ?_⟩
  · have hbelow : attached.flatMap (fun recursion => recursion.bound.map Member.node) =
        (recursions.zip (links.map ScopeColumn.aliasName)).flatMap fun source => source.1.nodes :=
      hattached.flatMap_eq fun source recursion _ _ hmade => by
        obtain ⟨_, emission, _, _, -, -, hbinds, -, hsame⟩ := hmade.exists_emission
        rw [hsame, hbinds.nodes]
    rw [wrappedEmission, List.map_append, hnodes, List.map_flatMap, hbelow,
      ← List.flatMap_map Prod.fst Scope.nodes, hfirst, Scope.nodes_eq, Scope.nodes_eq,
      Scope.recursions, List.flatMap_nil, List.append_nil]
    rfl
  · intro scope hwithin
    rcases hwithin.eq_or_exists with rfl | ⟨recursion, hrecursion, hwithin⟩
    · exact hunnested (.mk group folds []) .refl
    · rw [← hfirst] at hrecursion
      obtain ⟨source, hsource, rfl⟩ := List.mem_map.1 hrecursion
      obtain ⟨_, -, _, _, hmade⟩ := exists_right_of_forall₂ hattached.forall₂ hsource
      obtain ⟨_, emission, _, _, -, -, hbinds, -⟩ := hmade.exists_emission
      exact hbinds.unnested scope hwithin
  · have hbelow := hattached.takes (fun recursion => recursion.bound.map Member.aliasName)
      fun source recursion _ _ hmade => by
        obtain ⟨_, emission, _, _, hwalked, hlater, hbinds, -, hsame⟩ := hmade.exists_emission
        rw [hsame]
        exact hbinds.takes.mono hwalked hlater
    rw [wrappedEmission, List.map_append, List.map_flatMap]
    exact (htakes.mono (.refl _) (hbefore.trans (before_next _ _))).append hbelow
  · intro m hm
    rw [plainSelects_wrappedEmission]
    rcases List.mem_append.1 hm with hm | hm
    · obtain ⟨select, hselect, hin⟩ := hbound m hm
      rcases List.mem_append.1 hselect with hselect | hselect
      · exact ⟨select, by simp [hselect], hin⟩
      · obtain rfl := List.mem_singleton.1 hselect
        exact ⟨({ base.query with columns := base.query.columns ++ links } : ScopeQuery).select,
          by simp, hin⟩
    · obtain ⟨recursion, hrecursion, hm⟩ := List.mem_flatMap.1 hm
      obtain ⟨source, -, _, _, hmade⟩ := hattached.exists_of_mem hrecursion
      obtain ⟨_, emission, _, _, -, -, hbinds, hplain, hsame⟩ := hmade.exists_emission
      rw [hsame] at hm
      obtain ⟨select, hselect, hin⟩ := hbinds.boundIn m hm
      rw [← hplain] at hselect
      refine ⟨select, List.mem_append_left _ (List.mem_append_right _ ?_), hin⟩
      exact List.mem_flatMap.2 ⟨recursion, hrecursion, hselect⟩

/-- Every emitted scope binds its vertices. -/
theorem binds_of_emitScope {target : Target} {scope : Scope} {entry : Option RecursionEntry}
    {emission : ScopeEmission} {supply later : Sql.AliasSupply}
    (h : emitScope target scope entry supply = .ok (emission, later)) :
    emission.Binds target.schema scope supply later := by
  refine emitScope_induction (motive := fun scope _ emission supply later =>
    emission.Binds target.schema scope supply later) ?plain ?wrapped scope h
  case plain =>
    intro group folds entry members base supply later hbase
    exact hbase.binds
  case wrapped =>
    intro group folds recursions entry members base links attached supply based linked later _ hbase
      hlinks hattached
    exact hbase.binds_wrapped hlinks hattached

theorem Sql.Cte.selects_of_plain? {cte : Cte} {select : Select} (h : cte.plain? = some select) :
    cte.selects = [select] := by
  obtain ⟨name, content, isRecursive⟩ := cte
  cases content with
  | select query =>
      obtain rfl := Option.some.inj h
      rfl
  | recursive anchor step combinator => exact absurd h (by simp [Cte.plain?])

theorem Sql.storedAliases_plainSelects_sublist (ctes : List Cte) :
    ((plainSelects ctes).flatMap fun select => select.source.storedAliases).Sublist
      (ctes.flatMap Cte.names) := by
  induction ctes with
  | nil => exact .slnil
  | cons cte ctes ih =>
      rw [List.flatMap_cons, plainSelects, List.filterMap_cons]
      cases hplain : cte.plain? with
      | none => exact ih.trans (List.sublist_append_right _ _)
      | some select =>
          rw [List.flatMap_cons, Cte.names, Cte.selects_of_plain? hplain, List.flatMap_singleton]
          exact (List.sublist_cons_self _ _).append ih

theorem filter_eq_singleton {α β : Type} [DecidableEq β] {l : List α} {f : α → List β}
    (h : (l.flatMap f).Nodup) {a : α} (ha : a ∈ l) {b : β} (hb : b ∈ f a) :
    l.filter (fun x => b ∈ f x) = [a] := by
  induction l with
  | nil => exact absurd ha List.not_mem_nil
  | cons x l ih =>
      rw [List.flatMap_cons, List.nodup_append'] at h
      obtain ⟨-, hnodup, hdisjoint⟩ := h
      rcases List.mem_cons.1 ha with rfl | ha
      · have hrest : l.filter (fun x => b ∈ f x) = [] := by
          rw [List.filter_eq_nil_iff]
          intro x hx hmem
          exact hdisjoint hb (List.mem_flatMap.2 ⟨x, hx, by simpa using hmem⟩)
        rw [List.filter_cons_of_pos (by simpa using hb), hrest]
      · have hnot : b ∉ f x := fun hmem => hdisjoint hmem (List.mem_flatMap.2 ⟨a, ha, hb⟩)
        rw [List.filter_cons_of_neg (by simpa using hnot), ih hnodup ha]

namespace QueryTree

/-- The vertices of a tree are bound in selects: each has one location and one alias, no two have
the same, and each alias stands in just one of the selects, for the table of the type of the
vertex. -/
structure BoundBy (tree : QueryTree) (schema : Schema) (selects : List Sql.Select)
    (members : List Member) : Prop where
  nodes : (members.map Member.node).Perm tree.nodes
  locations : (members.map fun m => m.node.location).Nodup
  aliases : (members.map Member.aliasName).Nodup
  select : ∀ m ∈ members, ∃ select,
    selects.filter (fun select => m.aliasName ∈ select.source.storedAliases) = [select] ∧
      m.BoundIn schema select

/-- No alias of a stored table is used twice among the selects of an emission. -/
theorem nodup_storedAliases_of_emission {tree : QueryTree} {target : Target}
    {emission : ScopeEmission} (h : tree.emission target = .ok emission) :
    ((Sql.plainSelects emission.ctes ++ [emission.query.select]).flatMap
      fun select => select.source.storedAliases).Nodup := by
  obtain ⟨root, made, later, -, hmade, -, rfl⟩ := exists_of_emission_eq_ok h
  refine List.Sublist.nodup ?_ (named_of_emitScope hmade (by simp)).takes.nodup
  rw [List.flatMap_append, List.flatMap_singleton]
  exact (Sql.storedAliases_plainSelects_sublist _).append (.refl _)

/-- The emission of a tree binds its vertices. -/
theorem boundBy_of_emission {read : Blocks} {tree : QueryTree} {target : Target}
    {emission : ScopeEmission} (hread : QueryTree.ofBlocks read = .ok tree)
    (h : tree.emission target = .ok emission) :
    tree.BoundBy target.schema (Sql.plainSelects emission.ctes ++ [emission.query.select])
      emission.bound := by
  obtain ⟨hassemblable, rfl⟩ := ofBlocks_eq_ok_iff.1 hread
  obtain ⟨root, made, later, hroot, hmade, -, rfl⟩ := exists_of_emission_eq_ok h
  have hbinds := binds_of_emitScope hmade
  have hnodes : (made.bound.map Member.node).Perm read.tree.nodes := by
    rw [hbinds.nodes]
    exact nodes_rootScope_perm (Blocks.rooted_tree hassemblable.planted) hroot hbinds.unnested
  refine ⟨hnodes, ?_, hbinds.takes.nodup, ?_⟩
  · have hlocations := hnodes.map Node.location
    rw [List.map_map, Blocks.map_location_nodes_tree] at hlocations
    exact hlocations.nodup_iff.2 hassemblable.planted.distinct
  · intro m hm
    -- The sort of the columns leaves the tables of the last select alone.
    have hbound : ∃ select ∈ Sql.plainSelects made.ctes ++
        [({ made.query with columns := sortedOutputs made.query.columns } : ScopeQuery).select],
        m.BoundIn target.schema select := by
      obtain ⟨select, hselect, hin⟩ := hbinds.boundIn m hm
      rcases List.mem_append.1 hselect with hselect | hselect
      · exact ⟨select, List.mem_append_left _ hselect, hin⟩
      · obtain rfl := List.mem_singleton.1 hselect
        exact ⟨_, List.mem_append_right _ (List.mem_singleton.2 rfl), hin⟩
    obtain ⟨select, hselect, hin⟩ := hbound
    exact ⟨select, filter_eq_singleton (nodup_storedAliases_of_emission h) hselect
      hin.mem_storedAliases, hin⟩

/-- The vertices of a tree, each under the alias that the statement of the tree gives it. -/
def members (tree : QueryTree) (target : Target) : Except EmitError (List Member) :=
  (tree.emission target).map ScopeEmission.bound

/-- The statement of a query is that of its tree. -/
theorem exists_of_compile {query : Query} {target : Target} {statement : Sql.Statement}
    (h : query.compile target = .ok statement) :
    ∃ tree, query.tree = .ok tree ∧ tree.statement target = .ok statement := by
  unfold Query.compile at h
  obtain ⟨tree, htree, hstatement⟩ := bind_eq_ok_iff.1 h
  exact ⟨tree, mapError_eq_ok_iff.1 htree, mapError_eq_ok_iff.1 hstatement⟩

end QueryTree

/-- A query that compiles was read, has a tree, and its statement is that of the tree. -/
theorem Query.exists_of_compile_eq_ok {query : Query} {target : Target} {statement : Sql.Statement}
    (h : query.compile target = .ok statement) :
    ∃ read tree emission, query.blocks = .ok read ∧ QueryTree.ofBlocks read = .ok tree ∧
      query.tree = .ok tree ∧ tree.emission target = .ok emission ∧
      tree.members target = .ok emission.bound ∧ statement.ctes = emission.ctes ∧
      statement.body = emission.query.select := by
  obtain ⟨tree, htree, hstatement⟩ := QueryTree.exists_of_compile h
  obtain ⟨read, hread, hofBlocks⟩ := bind_eq_ok_iff.1 htree
  obtain ⟨emission, hemission, hctes, hbody⟩ := QueryTree.exists_of_statement_eq_ok hstatement
  refine ⟨read, tree, emission, hread, hofBlocks, htree, hemission, ?_, hctes, hbody⟩
  rw [QueryTree.members, hemission]
  rfl

end TraversalSql
