import TraversalSql.Proofs.ScopeFlags
import TraversalSql.Proofs.ScopeWalks
import TraversalSql.Proofs.Scoping

/-!
How a statement shares out the vertices of a tree.  A scope starts at the first vertex, at every
recursion and at every fold, and its members are bound in a select of its own; each vertex is a
member of one scope.  Nothing is emitted for a tree in which a fold or a recursion lies below a fold,
or in which a filter is tagged with a vertex of another scope.
-/

namespace TraversalSql

open Outcome

mutual

/-- The groups of a scope: its own, its folds, and those of the scopes of its recursions. -/
def Scope.groups : Scope → List Group
  | .mk group folds recursions => group :: folds ++ Scope.groupsOfAll recursions

def Scope.groupsOfAll : List Scope → List Group
  | [] => []
  | scope :: scopes => scope.groups ++ Scope.groupsOfAll scopes

end

namespace Scope

theorem groupsOfAll_eq_flatMap (scopes : List Scope) :
    groupsOfAll scopes = scopes.flatMap groups := by
  induction scopes with
  | nil => rfl
  | cons scope scopes ih => rw [groupsOfAll, ih, List.flatMap_cons]

mutual

theorem nodes_eq_flatMap_groups (scope : Scope) :
    scope.nodes = scope.groups.flatMap Group.nodes := by
  match scope with
  | .mk group folds recursions =>
      rw [nodes, groups, List.cons_append, List.flatMap_cons, List.flatMap_append,
        nodesOfAll_eq_flatMap_groupsOfAll recursions, List.append_assoc]

theorem nodesOfAll_eq_flatMap_groupsOfAll (scopes : List Scope) :
    nodesOfAll scopes = (groupsOfAll scopes).flatMap Group.nodes := by
  match scopes with
  | [] => rfl
  | scope :: scopes =>
      rw [nodesOfAll, groupsOfAll, List.flatMap_append, nodes_eq_flatMap_groups scope,
        nodesOfAll_eq_flatMap_groupsOfAll scopes]

end

mutual

/-- A group of a scope is that of a scope within it, or a fold of one. -/
theorem exists_within_of_mem_groups {group : Group} (root : Scope) (h : group ∈ root.groups) :
    ∃ scope, Within root scope ∧ (group = scope.group ∨ group ∈ scope.folds) := by
  match root with
  | .mk top folds recursions =>
      rw [groups, List.mem_append, List.mem_cons] at h
      rcases h with (rfl | h) | h
      · exact ⟨_, .refl, .inl rfl⟩
      · exact ⟨_, .refl, .inr h⟩
      · obtain ⟨recursion, hrecursion, scope, hwithin, hgroup⟩ :=
          exists_within_of_mem_groupsOfAll recursions h
        exact ⟨scope, .of_recursion hrecursion hwithin, hgroup⟩

theorem exists_within_of_mem_groupsOfAll {group : Group} (scopes : List Scope)
    (h : group ∈ groupsOfAll scopes) :
    ∃ recursion ∈ scopes, ∃ scope, Within recursion scope ∧
      (group = scope.group ∨ group ∈ scope.folds) := by
  match scopes with
  | [] => exact absurd h List.not_mem_nil
  | scope :: scopes =>
      rcases List.mem_append.1 h with h | h
      · exact ⟨scope, List.mem_cons_self, exists_within_of_mem_groups scope h⟩
      · obtain ⟨recursion, hrecursion, hgroup⟩ := exists_within_of_mem_groupsOfAll scopes h
        exact ⟨recursion, List.mem_cons_of_mem _ hrecursion, hgroup⟩

end

end Scope

/-- A scope as it is bound: its vertices under their aliases, and the select that binds them. -/
structure BoundScope where
  group : Group
  members : List Member
  select : Sql.Select

def BoundScope.top (scope : BoundScope) : Node := scope.group.node

/-- The members of a scope are the vertices of its group and are bound in its select, and their
filters are tagged with members only. -/
structure BoundScope.Made (scope : BoundScope) (schema : Schema) : Prop where
  nodes : scope.members.map Member.node = scope.group.nodes
  bound : ∀ m ∈ scope.members, m.BoundIn schema scope.select
  tags : ∀ m ∈ scope.members, ∀ p ∈ m.node.predicates, p.predicate.tag.isSome →
    ∀ id ∈ p.tagNode, id ∈ (scope.members.map Member.node).map Node.id

/-- Groups are bound as scopes, with some members in all, by different ones of some selects. -/
def SharedOut (schema : Schema) (groups : List Group) (bound : List Member)
    (selects : List Sql.Select) : Prop :=
  ∃ scopes : List BoundScope, scopes.map BoundScope.group = groups ∧
    scopes.flatMap BoundScope.members = bound ∧
    (scopes.map BoundScope.select).Subperm selects ∧ ∀ scope ∈ scopes, scope.Made schema

namespace SharedOut

variable {schema : Schema} {groups others : List Group} {bound further : List Member}
  {selects more : List Sql.Select}

theorem nil : SharedOut schema [] [] [] :=
  ⟨[], rfl, rfl, .refl _, fun _ h => absurd h List.not_mem_nil⟩

theorem singleton (scope : BoundScope) (h : scope.Made schema) :
    SharedOut schema [scope.group] scope.members [scope.select] :=
  ⟨[scope], rfl, List.flatMap_singleton _ _, .refl _, List.forall_mem_singleton.2 h⟩

theorem append (h : SharedOut schema groups bound selects)
    (hothers : SharedOut schema others further more) :
    SharedOut schema (groups ++ others) (bound ++ further) (selects ++ more) := by
  obtain ⟨scopes, rfl, rfl, hselects, hmade⟩ := h
  obtain ⟨beside, rfl, rfl, hmore, hbeside⟩ := hothers
  refine ⟨scopes ++ beside, List.map_append, List.flatMap_append, ?_,
    List.forall_mem_append.2 ⟨hmade, hbeside⟩⟩
  rw [List.map_append]
  exact hselects.append hmore

theorem mono (h : SharedOut schema groups bound selects) (hmore : selects.Subperm more) :
    SharedOut schema groups bound more := by
  obtain ⟨scopes, hgroups, hbound, hselects, hmade⟩ := h
  exact ⟨scopes, hgroups, hbound, hselects.trans hmore, hmade⟩

end SharedOut

theorem Steps.sharedOut {α β : Type} {made : α → β → Sql.AliasSupply → Sql.AliasSupply → Prop}
    {as : List α} {bs : List β} {supply later : Sql.AliasSupply} (h : Steps made as bs supply later)
    (schema : Schema) (groups : α → List Group) (bound : β → List Member)
    (selects : β → List Sql.Select)
    (hmade : ∀ a b supply later, made a b supply later →
      SharedOut schema (groups a) (bound b) (selects b)) :
    SharedOut schema (as.flatMap groups) (bs.flatMap bound) (bs.flatMap selects) := by
  induction h with
  | nil => exact .nil
  | cons hfirst _ ih => exact (hmade _ _ _ _ hfirst).append ih

/-- Where the conditions of members can be made, filters are tagged with members. -/
theorem Members.mem_of_tagNode {members : Members} {schema : Schema} {scopeRoot : Node}
    {filters : List Sql.Expr} (h : members.filters schema scopeRoot = .ok filters) {m : Member}
    (hm : m ∈ members.bound) {p : NodePredicate} (hp : p ∈ m.node.predicates)
    (htag : p.predicate.tag.isSome) {id : Nat} (hid : p.tagNode = some id) :
    id ∈ (members.bound.map Member.node).map Node.id := by
  have hasked : (m, p) ∈ Member.asked members.bound :=
    List.mem_flatMap.2 ⟨m, hm, List.mem_map_of_mem hp⟩
  obtain ⟨condition, -, hfilter⟩ := exists_right_of_forall₂ (mapM_eq_ok_iff.1 h) hasked
  obtain ⟨_, tag, _, -, htagged, -, -, -⟩ := exists_of_filter_eq_ok hfilter
  rcases htagged with ⟨_, found, tagged, _, -, hfound, hfind, -, -⟩ | ⟨hnone | hnone, -⟩
  · obtain rfl := Option.some.inj (hid.symm.trans hfound)
    have hsame : tagged.node.id = id := by simpa using List.find?_some hfind
    rw [List.map_map]
    exact List.mem_map.2 ⟨tagged, List.mem_of_find?_eq_some hfind, hsame⟩
  · rw [hnone] at htag
    exact absurd htag Bool.false_ne_true
  · exact absurd (hid.symm.trans hnone) (Option.some_ne_none id)

/-- A fold is bound as a scope. -/
theorem FoldMade.sharedOut {target : Target} {owner : Member} {fold : Group} {query : FoldQuery}
    {supply later : Sql.AliasSupply} (h : FoldMade target owner fold query supply later) :
    SharedOut target.schema [fold] query.bound (Sql.plainSelects [query.cte]) := by
  have hnodes := h.binds.nodes
  obtain ⟨select, hselect, hbound⟩ := h.binds.select
  obtain ⟨traversal, table, first, rest, members, filters, outputs, joined, bound, -, -, -, -,
    hfilters, -, rfl, -⟩ := h
  obtain rfl := Option.some.inj hselect
  exact .singleton ⟨fold, members.bound, _⟩
    ⟨hnodes, hbound, fun _ hm _ hp htag _ => members.mem_of_tagNode hfilters hm hp htag⟩

/-- The groups of a scope are bound as scopes by selects of its emission, whatever columns the last
of them has. -/
def ScopeEmission.SharesOut (emission : ScopeEmission) (schema : Schema) (scope : Scope) : Prop :=
  ∀ columns, SharedOut schema scope.groups emission.bound (Sql.plainSelects emission.ctes ++
    [({ emission.query with columns } : ScopeQuery).select])

/-- A scope without its recursions binds its group and its folds. -/
theorem BaseMade.sharesOut {target : Target} {entry : Option RecursionEntry} {group : Group}
    {folds : List Group} {members : Members} {emission : ScopeEmission}
    {supply later : Sql.AliasSupply}
    (h : BaseMade target entry group folds members emission supply later) :
    emission.SharesOut target.schema (.mk group folds []) := by
  have hselect := h.boundIn_select
  obtain ⟨table, start, outputs, folded, filters, bound, -, -, hmembers, -, hfolded, hfilters,
    rfl⟩ := h
  obtain ⟨bindings, hbindings, hnodes, -⟩ := exists_bindings_of_bindGroup _ hmembers
  intro columns
  have hgroup : SharedOut target.schema [group] members.bound
      [({ (baseEmission entry start members outputs folded filters).query with columns } :
        ScopeQuery).select] :=
    .singleton ⟨group, members.bound, _⟩
      ⟨hnodes, hselect, fun _ hm _ hp htag _ => members.mem_of_tagNode hfilters hm hp htag⟩
  have hfolds := hfolded.sharedOut target.schema (fun fold => [fold]) FoldQuery.bound
    (fun query => Sql.plainSelects [query.cte]) fun _ _ _ _ ⟨_, _, hmade⟩ => hmade.sharedOut
  have hplain : Sql.plainSelects (folded.map FoldQuery.cte) =
      folded.flatMap fun query => Sql.plainSelects [query.cte] := by
    rw [Sql.plainSelects, List.map_eq_flatMap, List.filterMap_flatMap]
    rfl
  have hall := hgroup.append hfolds
  rw [List.flatMap_singleton', List.singleton_append] at hall
  rw [Scope.groups, Scope.groupsOfAll, List.append_nil, baseEmission, hplain]
  exact hall.mono List.perm_append_comm.subperm

/-- A scope with its recursions binds what the scope without them and the recursions bind. -/
theorem BaseMade.sharesOut_wrapped {target : Target} {entry : Option RecursionEntry} {group : Group}
    {folds : List Group} {recursions : List Scope} {members : Members} {base : ScopeEmission}
    {links : List ScopeColumn} {attached : List AttachedRecursion}
    {supply based linked later : Sql.AliasSupply}
    (hbase : BaseMade target entry group folds members base supply based)
    (hlinks : Steps (LinkMade target members) recursions links based linked)
    (hattached : Steps (AttachedMade target
      (fun scope _ emission _ _ => emission.SharesOut target.schema scope)
      group.node (linked.nextCte .scope).1)
      (recursions.zip (links.map ScopeColumn.aliasName)) attached (linked.nextCte .scope).2 later) :
    (wrappedEmission entry base links (linked.nextCte .scope).1 attached).SharesOut target.schema
      (.mk group folds recursions) := by
  intro columns
  have hfirst := hbase.sharesOut (base.query.columns ++ links)
  have hbelow := hattached.sharedOut target.schema (fun source => source.1.groups)
    AttachedRecursion.bound (fun recursion => Sql.plainSelects recursion.ctes)
    fun source recursion _ _ hmade => by
      obtain ⟨_, emission, _, _, -, -, hshares, hplain, hsame⟩ := hmade.exists_emission
      rw [hplain, hsame]
      exact hshares emission.query.columns
  have hgroups : (recursions.zip (links.map ScopeColumn.aliasName)).flatMap
      (fun source => source.1.groups) = recursions.flatMap Scope.groups := by
    rw [← List.flatMap_map Prod.fst Scope.groups, map_fst_zip_of_linksMade hlinks]
  have hall := hfirst.append hbelow
  rw [hgroups, ← Scope.groupsOfAll_eq_flatMap, Scope.groups, Scope.groupsOfAll,
    List.append_nil] at hall
  rw [plainSelects_wrappedEmission, Scope.groups]
  -- The last select only joins what the common table expressions hold, and binds no vertex.
  exact hall.mono (List.sublist_append_left _ _).subperm

/-- Every emitted scope binds its groups as scopes. -/
theorem sharesOut_of_emitScope {target : Target} {scope : Scope} {entry : Option RecursionEntry}
    {emission : ScopeEmission} {supply later : Sql.AliasSupply}
    (h : emitScope target scope entry supply = .ok (emission, later)) :
    emission.SharesOut target.schema scope := by
  refine emitScope_induction (motive := fun scope _ emission _ _ =>
    emission.SharesOut target.schema scope) ?plain ?wrapped scope h
  case plain =>
    intro group folds entry members base supply later hbase
    exact hbase.sharesOut
  case wrapped =>
    intro group folds recursions entry members base links attached supply based linked later _ hbase
      hlinks hattached
    exact hbase.sharesOut_wrapped hlinks hattached

theorem RelationKind.only_isTraverse {kind : RelationKind} (h : kind.isTraverse) :
    kind.isFold = false ∧ kind.isRecursion = false := by
  cases kind with
  | traverse => exact ⟨rfl, rfl⟩
  | root | recurse | fold => exact absurd h Bool.false_ne_true

namespace Scope

theorem CutFrom.filter_isTop {scope : Scope} {nodes : List Node} (h : scope.CutFrom nodes)
    (htop : scope.node.isTop) : scope.group.nodes.filter Node.isTop = [scope.node] := by
  obtain ⟨⟨top, children⟩, folds, recursions⟩ := scope
  have hplain : ∀ above below, Group.Hangs (.mk top children) above below → ¬ below.isTop := by
    intro above below hhangs
    obtain ⟨hparent, hkind⟩ := h.hangs above below hhangs
    simp [Node.isTop, hparent, RelationKind.only_isTraverse hkind]
  have hbelow : ∀ node ∈ Group.nodesOfAll children, ¬ node.isTop := by
    refine Group.forall_nodesOfAll children (fun child hchild => hplain _ _ (.here hchild)) ?_
    intro child hchild above _ below hhangs _
    exact hplain above below (.inside hchild hhangs)
  have htop : top.isTop := htop
  rw [group, Group.nodes, List.filter_cons_of_pos htop, List.filter_eq_nil_iff.2 hbelow]
  rfl

/-- A scope within another one is that scope or belongs to a recursion. -/
theorem Within.eq_or_isRecursion {root scope : Scope} {nodes : List Node}
    (harranged : Arranged nodes) (hroot : root ∈ QueryTree.scopes nodes) (h : Within root scope) :
    scope = root ∨ scope.node.relation.kind.isRecursion := by
  cases h with
  | refl => exact .inl rfl
  | recursion hscope hrecursion =>
      have hcut := cutFrom_of_mem_scopes harranged (hscope.mem_scopes harranged hroot)
      exact .inr (hcut.recursions _ hrecursion).1

/-- The groups of a scope that starts somewhere are those of scopes that start somewhere. -/
theorem exists_scope_of_mem_groups {root : Scope} {nodes : List Node} (harranged : Arranged nodes)
    (hroot : root ∈ QueryTree.scopes nodes) (htop : root.node.isTop) {group : Group}
    (h : group ∈ root.groups) :
    ∃ scope ∈ QueryTree.scopes nodes, scope.group = group ∧ scope.node.isTop := by
  obtain ⟨scope, hwithin, hgroup⟩ := exists_within_of_mem_groups root h
  have hscope := hwithin.mem_scopes harranged hroot
  rcases hgroup with rfl | hfold
  · refine ⟨scope, hscope, rfl, ?_⟩
    rcases hwithin.eq_or_isRecursion harranged hroot with rfl | hkind
    · exact htop
    · simp [Node.isTop, hkind]
  · obtain ⟨hkind, ⟨fold, hmem, rfl⟩, -⟩ :=
      (cutFrom_of_mem_scopes harranged hscope).folds group hfold
    have hkind : fold.node.relation.kind.isFold := hkind
    exact ⟨fold, hmem, rfl, by simp [Node.isTop, hkind]⟩

end Scope

namespace Blocks

variable {read : Blocks} {root : Scope}

theorem parent_of_rootScope? (hplanted : Planted read.relations)
    (hroot : read.tree.rootScope? = some root) : root.node.parent = none := by
  obtain ⟨later, hnodes, -⟩ := QueryTree.rootScope?_eq_some hroot
  have hmem : root.node ∈ read.tree.nodes := hnodes ▸ List.mem_cons_self
  have hids := map_id_nodes_tree read
  rw [hnodes, List.map_cons] at hids
  refine (parent_eq_none_iff hplanted hmem).2 ?_
  have hfirst := congrArg List.head? hids
  rw [List.head?_cons, List.head?_range] at hfirst
  split at hfirst
  · exact absurd hfirst (Option.some_ne_none _)
  · exact Option.some.inj hfirst

theorem isTop_of_rootScope? (hplanted : Planted read.relations)
    (hroot : read.tree.rootScope? = some root) : root.node.isTop := by
  simp [Node.isTop, parent_of_rootScope? hplanted hroot]

/-- The groups of the first scope start at the vertices at which scopes start. -/
theorem map_node_groups_perm (hplanted : Planted read.relations)
    (hroot : read.tree.rootScope? = some root) (hunnested : root.Unnested) :
    (root.groups.map Group.node).Perm read.tree.tops := by
  have htree := rooted_tree hplanted
  obtain ⟨-, -, hmem⟩ := QueryTree.rootScope?_eq_some hroot
  have hfilter : root.nodes.filter Node.isTop = root.groups.map Group.node := by
    rw [Scope.nodes_eq_flatMap_groups, List.filter_flatMap, List.map_eq_flatMap]
    refine List.flatMap_congr fun group hgroup => ?_
    obtain ⟨scope, hscope, rfl, htop⟩ := Scope.exists_scope_of_mem_groups htree.arranged hmem
      (isTop_of_rootScope? hplanted hroot) hgroup
    exact (Scope.cutFrom_of_mem_scopes htree.arranged hscope).filter_isTop htop
  rw [← hfilter]
  exact (QueryTree.nodes_rootScope_perm htree hroot hunnested).filter _

/-- What lies below a fold is reached by a plain crossing, where the first scope is emitted. -/
theorem isTraverse_of_below_fold (hplanted : Planted read.relations)
    (hroot : read.tree.rootScope? = some root) (hunnested : root.Unnested) {fold below : Node}
    (hfold : fold ∈ read.tree.nodes) (hkind : fold.relation.kind.isFold)
    (hparent : fold.parent ≠ none) (hbelow : Relation.TransGen read.tree.Hangs fold below) :
    below.relation.kind.isTraverse := by
  have harranged := (rooted_tree hplanted).arranged
  obtain ⟨-, -, hmem⟩ := QueryTree.rootScope?_eq_some hroot
  have htop : fold ∈ read.tree.tops := List.mem_filter.2 ⟨hfold, by simp [Node.isTop, hkind]⟩
  obtain ⟨group, hgroup, rfl⟩ :=
    List.mem_map.1 ((map_node_groups_perm hplanted hroot hunnested).mem_iff.2 htop)
  obtain ⟨scope, hwithin, rfl | hgroup⟩ := Scope.exists_within_of_mem_groups root hgroup
  · rcases hwithin.eq_or_isRecursion harranged hmem with rfl | hrecursion
    · exact absurd (parent_of_rootScope? hplanted hroot) hparent
    · have hkind : scope.node.relation.kind.isFold := hkind
      cases hrelation : scope.node.relation.kind <;>
        simp [hrelation, RelationKind.isFold, RelationKind.isRecursion] at hkind hrecursion
  · have hstep : ∀ above below, read.tree.Hangs above below → above ∈ group.nodes →
        below.relation.kind.isTraverse ∧ below ∈ group.nodes := by
      intro above below hhangs habove
      exact hunnested.hangs_in_fold harranged hmem hwithin hgroup habove hhangs.below_mem
        hhangs.parent (kind_ne_root_of_parent hplanted hhangs.below_mem hhangs.parent)
    have hall : below.relation.kind.isTraverse ∧ below ∈ group.nodes := by
      induction hbelow with
      | single hhangs =>
          obtain ⟨top, children⟩ := group
          exact hstep _ _ hhangs List.mem_cons_self
      | tail _ hhangs ih => exact hstep _ _ hhangs ih.2
    exact hall.1

end Blocks

theorem nodup_of_subperm {α β : Type} {l all : List α} {f : α → List β}
    (h : l.Subperm all) (hnodup : (all.flatMap f).Nodup) (hsome : ∀ a ∈ l, f a ≠ []) :
    l.Nodup := by
  obtain ⟨found, hperm, hsublist⟩ := h
  rw [← hperm.nodup_iff]
  have hdisjoint := (List.nodup_flatMap.1 hnodup).2.sublist hsublist
  refine hdisjoint.imp_of_mem fun {a b} ha _ hapart hsame => ?_
  subst hsame
  obtain ⟨x, hx⟩ := List.exists_mem_of_ne_nil _ (hsome a (hperm.mem_iff.1 ha))
  exact hapart hx hx

namespace QueryTree

/-- Bound scopes share out the vertices of a tree. -/
structure Partitioned (tree : QueryTree) (schema : Schema) (selects : List Sql.Select)
    (members : List Member) (scopes : List BoundScope) : Prop where
  /-- One scope starts at the first vertex, one at each recursion and one at each fold. -/
  tops : (scopes.map BoundScope.top).Perm tree.tops
  /-- A walk from the start of a scope visits its members in their order, and ends. -/
  walked : ∀ scope ∈ scopes,
    tree.visit tree.size [scope.top.id] = some (scope.members.map Member.node)
  /-- Each vertex is a member of one scope. -/
  once : ∀ node ∈ tree.nodes, ∃ scope,
    scopes.filter (fun scope => node ∈ scope.members.map Member.node) = [scope]
  members : scopes.flatMap BoundScope.members = members
  /-- The members of a scope are bound in its select. -/
  bound : ∀ scope ∈ scopes, scope.select ∈ selects ∧
    ∀ m ∈ scope.members, m.BoundIn schema scope.select
  /-- No two scopes have the same select. -/
  separate : (scopes.map BoundScope.select).Nodup
  /-- A filter of a member is tagged with a member of the same scope. -/
  tags : ∀ scope ∈ scopes, ∀ m ∈ scope.members, ∀ p ∈ m.node.predicates,
    ∀ tag ∈ p.predicate.tag, ∀ tagged ∈ tree.nodes, tagged.location = tag.location →
      tagged ∈ scope.members.map Member.node

/-- The scopes of an emission share out the vertices of its tree. -/
theorem exists_partitioned_of_emission {read : Blocks} {tree : QueryTree} {target : Target}
    {emission : ScopeEmission} (hread : ofBlocks read = .ok tree)
    (h : tree.emission target = .ok emission) :
    ∃ scopes, tree.Partitioned target.schema
      (Sql.plainSelects emission.ctes ++ [emission.query.select]) emission.bound scopes := by
  have hnodup := nodup_storedAliases_of_emission h
  have hbound := boundBy_of_emission hread h
  obtain ⟨hassemblable, rfl⟩ := ofBlocks_eq_ok_iff.1 hread
  have hplanted := hassemblable.planted
  have harranged := (Blocks.rooted_tree hplanted).arranged
  obtain ⟨root, made, later, hroot, hmade, -, rfl⟩ := exists_of_emission_eq_ok h
  obtain ⟨-, -, hmem⟩ := rootScope?_eq_some hroot
  obtain ⟨scopes, hgroups, hmembers, hselects, hscopes⟩ := sharesOut_of_emitScope hmade
    (sortedOutputs made.query.columns)
  -- Every bound scope has the group of a scope of the tree.
  have hcut : ∀ scope ∈ scopes, ∃ cut ∈ QueryTree.scopes read.tree.nodes,
      cut.group = scope.group ∧ cut.node.isTop := by
    intro scope hscope
    exact Scope.exists_scope_of_mem_groups harranged hmem
      (Blocks.isTop_of_rootScope? hplanted hroot) (hgroups ▸ List.mem_map_of_mem hscope)
  have hnodes : (scopes.flatMap fun scope => scope.members.map Member.node).Perm
      read.tree.nodes := by
    rw [← List.map_flatMap, hmembers]
    exact hbound.nodes
  refine ⟨scopes, ?tops, ?walked, ?once, hmembers, ?bound, ?separate, ?tags⟩
  case tops =>
    have htops := Blocks.map_node_groups_perm hplanted hroot (binds_of_emitScope hmade).unnested
    rw [← hgroups, List.map_map] at htops
    exact htops
  case walked =>
    intro scope hscope
    obtain ⟨cut, hcut, hgroup, htop⟩ := hcut scope hscope
    rw [(hscopes scope hscope).nodes, BoundScope.top, ← hgroup]
    exact Blocks.visit_eq_some_of_isTop hplanted hcut htop
  case once =>
    intro node hnode
    obtain ⟨scope, hscope, hin⟩ := List.mem_flatMap.1 (hnodes.mem_iff.2 hnode)
    have hdistinct : read.tree.nodes.Nodup := harranged.distinct.of_map _
    exact ⟨scope, filter_eq_singleton (hnodes.nodup_iff.2 hdistinct) hscope hin⟩
  case bound =>
    intro scope hscope
    exact ⟨hselects.subset (List.mem_map_of_mem hscope), (hscopes scope hscope).bound⟩
  case separate =>
    refine nodup_of_subperm hselects hnodup (List.forall_mem_map.2 fun scope hscope => ?_)
    obtain ⟨cut, -, hgroup, -⟩ := hcut scope hscope
    have hmade := hscopes scope hscope
    have hfirst : scope.top ∈ scope.members.map Member.node := by
      rw [hmade.nodes, BoundScope.top, ← hgroup]
      exact cut.node_mem_nodes_group
    obtain ⟨m, hm, -⟩ := List.mem_map.1 hfirst
    exact List.ne_nil_of_mem (hmade.bound m hm).mem_storedAliases
  case tags =>
    intro scope hscope m hm p hp tag htag tagged htagged hlocation
    obtain ⟨cut, hcut, hgroup, -⟩ := hcut scope hscope
    have hmade := hscopes scope hscope
    have hin := (Scope.cutFrom_of_mem_scopes harranged hcut).mem
    rw [hgroup, ← hmade.nodes] at hin
    have htagNode : p.tagNode = some tagged.id := by
      rw [(Blocks.location_of_mem_predicates (hin _ (List.mem_map_of_mem hm)) hp).2, htag,
        Option.bind_some, ← hlocation]
      exact Blocks.place?_location hplanted htagged
    have hid := hmade.tags m hm p hp (Option.isSome_of_mem htag) tagged.id htagNode
    obtain ⟨found, hfound, hsame⟩ := List.mem_map.1 hid
    obtain rfl := List.inj_on_of_nodup_map harranged.distinct (hin _ hfound) htagged hsame
    exact hfound

theorem exists_partitioned_of_statement {read : Blocks} {tree : QueryTree} {target : Target}
    {statement : Sql.Statement} (hread : ofBlocks read = .ok tree)
    (h : tree.statement target = .ok statement) :
    ∃ members scopes, tree.members target = .ok members ∧
      tree.Partitioned target.schema statement.plainSelects members scopes := by
  obtain ⟨emission, hemission, hctes, hbody⟩ := exists_of_statement_eq_ok h
  obtain ⟨scopes, hscopes⟩ := exists_partitioned_of_emission hread hemission
  refine ⟨emission.bound, scopes, by rw [members, hemission]; rfl, ?_⟩
  rw [Sql.Statement.plainSelects, hctes, hbody]
  exact hscopes

/-- One walk visits the vertex of a filter and the vertex of its tag. -/
theorem Partitioned.exists_walk {tree : QueryTree} {schema : Schema} {selects : List Sql.Select}
    {members : List Member} {scopes : List BoundScope}
    (h : tree.Partitioned schema selects members scopes) {node tagged : Node}
    (hnode : node ∈ tree.nodes) {p : NodePredicate} (hp : p ∈ node.predicates) {tag : FieldRef}
    (htag : tag ∈ p.predicate.tag) (htagged : tagged ∈ tree.nodes)
    (hlocation : tagged.location = tag.location) :
    ∃ top ∈ tree.tops, ∃ walk ∈ tree.visit tree.size [top.id], node ∈ walk ∧ tagged ∈ walk := by
  obtain ⟨scope, hfilter⟩ := h.once node hnode
  obtain ⟨hscope, hin⟩ := List.mem_filter.1 (hfilter ▸ List.mem_singleton.2 rfl)
  have hin := of_decide_eq_true hin
  obtain ⟨m, hm, rfl⟩ := List.mem_map.1 hin
  exact ⟨scope.top, h.tops.mem_iff.1 (List.mem_map_of_mem hscope), _, h.walked scope hscope, hin,
    h.tags scope hscope m hm p hp tag htag tagged htagged hlocation⟩

/-- The walks that collect scopes end and visit each vertex once, and the scopes of a statement
share out the vertices as these walks do.  There is no statement where a fold or a recursion lies
below a fold that is not the first vertex, or where a filter is tagged with a vertex that no walk
visits along with the vertex of the filter. -/
theorem scopes_partition {read : Blocks} {tree : QueryTree} (h : ofBlocks read = .ok tree)
    (target : Target) :
    (∃ walks, List.Forall₂ (fun top walk => tree.visit tree.size [top.id] = some walk)
      tree.tops walks ∧ walks.flatten.Perm tree.nodes) ∧
    (∀ statement, tree.statement target = .ok statement → ∃ members scopes,
      tree.members target = .ok members ∧
        tree.Partitioned target.schema statement.plainSelects members scopes) ∧
    (∀ fold ∈ tree.nodes, fold.relation.kind.isFold → fold.parent ≠ none → ∀ below,
      Relation.TransGen tree.Hangs fold below →
      below.relation.kind.isFold ∨ below.relation.kind.isRecursion →
        ∃ error, tree.statement target = .error error) ∧
    (∀ node ∈ tree.nodes, ∀ p ∈ node.predicates, ∀ tag ∈ p.predicate.tag, ∀ tagged ∈ tree.nodes,
      tagged.location = tag.location →
      (∀ top ∈ tree.tops, ∀ walk ∈ tree.visit tree.size [top.id], node ∈ walk → tagged ∉ walk) →
        ∃ error, tree.statement target = .error error) := by
  obtain ⟨hassemblable, rfl⟩ := ofBlocks_eq_ok_iff.1 h
  have hplanted := hassemblable.planted
  refine ⟨Blocks.exists_walks hplanted, fun _ => exists_partitioned_of_statement h, ?nested,
    ?tagged⟩
  case nested =>
    intro fold hfold hkind hparent below hbelow hnested
    cases hstatement : read.tree.statement target with
    | error error => exact ⟨error, rfl⟩
    | ok statement =>
        obtain ⟨emission, hemission, -⟩ := exists_of_statement_eq_ok hstatement
        obtain ⟨root, made, later, hroot, hmade, -⟩ := exists_of_emission_eq_ok hemission
        have htraverse := Blocks.isTraverse_of_below_fold hplanted hroot
          (binds_of_emitScope hmade).unnested hfold hkind hparent hbelow
        simp [RelationKind.only_isTraverse htraverse] at hnested
  case tagged =>
    intro node hnode p hp tag htag tagged htagged hlocation hapart
    cases hstatement : read.tree.statement target with
    | error error => exact ⟨error, rfl⟩
    | ok statement =>
        obtain ⟨members, scopes, -, hscopes⟩ := exists_partitioned_of_statement h hstatement
        obtain ⟨top, htop, walk, hwalk, hin, htaggedIn⟩ :=
          hscopes.exists_walk hnode hp htag htagged hlocation
        exact absurd htaggedIn (hapart top htop walk hwalk hin)

/-- The offspring of an animal, with the animals of the owners of each: a fold below a fold. -/
def litters : Blocks where
  blocks := [
    .relation ⟨animal, .root, none⟩,
    .relation ⟨young, .fold, some ⟨"child", .outward⟩⟩,
    .relation ⟨owner, .traverse, some ⟨"owns", .inward⟩⟩,
    .relation ⟨pet, .fold, some ⟨"owns", .outward⟩⟩]
  outputs := [("young", ⟨young.location, "name"⟩), ("pet", ⟨pet.location, "name"⟩)]
where
  animal : Site := ⟨⟨["Animal"]⟩, false, false, false, "Animal", none⟩
  young : Site := ⟨⟨["Animal", "out_child"]⟩, false, true, false, "Animal", some "Animal"⟩
  owner : Site := ⟨⟨["Animal", "out_child", "in_owns"]⟩, false, true, false, "Person",
    some "Animal"⟩
  pet : Site := ⟨⟨["Animal", "out_child", "in_owns", "out_owns"]⟩, false, true, false, "Animal",
    some "Person"⟩

/-- The descendants of an animal that weigh less than it: a filter in one scope that is tagged with
a vertex of another one. -/
def outgrown : Blocks where
  blocks := [
    .relation ⟨animal, .root, none⟩,
    .relation ⟨descendant, .recurse 3, some ⟨"child", .outward⟩⟩,
    .predicate ⟨descendant, "weight", [], .less, some ⟨animal.location, "weight"⟩⟩]
  outputs := [("descendant", ⟨descendant.location, "name"⟩)]
where
  animal : Site := ⟨⟨["Animal"]⟩, false, false, false, "Animal", none⟩
  descendant : Site := ⟨⟨["Animal", "out_child"]⟩, false, false, true, "Animal", some "Animal"⟩

theorem scopes_partition_pedigree :
    (∃ tree statement members scopes, (Query.ofPattern Query.pedigree).tree = .ok tree ∧
      tree.statement Query.farm = .ok statement ∧ tree.members Query.farm = .ok members ∧
      scopes.length = 3 ∧
      tree.Partitioned Query.farm.schema statement.plainSelects members scopes) ∧
    (∃ tree error, ofBlocks litters = .ok tree ∧ tree.statement Query.farm = .error error) ∧
    ∃ tree error, ofBlocks outgrown = .ok tree ∧ tree.statement Query.farm = .error error := by
  refine ⟨?shared, ?nested, ?tagged⟩
  case shared =>
    obtain ⟨tree, statement, htree, hstatement⟩ := exists_statement_pedigree
    obtain ⟨read, hread, hofBlocks⟩ := bind_eq_ok_iff.1 htree
    obtain ⟨members, scopes, hmembers, hscopes⟩ :=
      (scopes_partition hofBlocks Query.farm).2.1 statement hstatement
    refine ⟨tree, statement, members, scopes, htree, hstatement, hmembers, ?_, hscopes⟩
    have hknown : (Query.ofPattern Query.pedigree).tree = .ok Query.pedigree.tree := rfl
    obtain rfl := Except.ok.inj (htree.symm.trans hknown)
    calc scopes.length = (scopes.map BoundScope.top).length := (List.length_map _).symm
      _ = Query.pedigree.tree.tops.length := hscopes.tops.length_eq
      _ = 3 := by decide
  case nested =>
    have hknown : ofBlocks litters = .ok litters.tree := rfl
    have hfound : ∃ fold ∈ litters.tree.nodes, ∃ between ∈ litters.tree.nodes,
        ∃ below ∈ litters.tree.nodes, fold.relation.kind.isFold ∧ fold.parent ≠ none ∧
          between.parent = some fold.id ∧ below.parent = some between.id ∧
          below.relation.kind.isFold := by decide
    obtain ⟨fold, hfold, between, hbetween, below, hbelow, hkind, hparent, hfirst, hsecond,
      hnested⟩ := hfound
    have hunder : Relation.TransGen litters.tree.Hangs fold below :=
      .tail (.single ⟨hfold, hbetween, hfirst⟩) ⟨hbetween, hbelow, hsecond⟩
    obtain ⟨error, herror⟩ := (scopes_partition hknown Query.farm).2.2.1 fold hfold hkind hparent
      below hunder (.inl hnested)
    exact ⟨_, error, hknown, herror⟩
  case tagged =>
    have hknown : ofBlocks outgrown = .ok outgrown.tree := rfl
    have hfound : ∃ node ∈ outgrown.tree.nodes, ∃ p ∈ node.predicates, ∃ tag ∈ p.predicate.tag,
        ∃ tagged ∈ outgrown.tree.nodes, tagged.location = tag.location ∧
          ∀ top ∈ outgrown.tree.tops, ∀ walk ∈ outgrown.tree.visit outgrown.tree.size [top.id],
            node ∈ walk → tagged ∉ walk := by decide
    obtain ⟨node, hnode, p, hp, tag, htag, tagged, htagged, hlocation, hapart⟩ := hfound
    obtain ⟨error, herror⟩ := (scopes_partition hknown Query.farm).2.2.2 node hnode p hp tag htag
      tagged htagged hlocation hapart
    exact ⟨_, error, hknown, herror⟩

end QueryTree

end TraversalSql
