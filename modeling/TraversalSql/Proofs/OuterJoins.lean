import TraversalSql.Proofs.BoundVertices

/-!
Which tables of a `FROM` clause may be missing from a row.  A vertex of a scope is joined so that it
may be missing exactly if it is optional within the scope; the top vertex, from which all others are
reached, never is.
-/

namespace TraversalSql

open Outcome

namespace Sql.FromClause

/-- The aliases of the tables that are joined so that a row without a partner is kept. -/
def outerAliases (source : FromClause) : List String :=
  (source.joins.filter fun join => join.kind == .left).map fun join => join.table.aliasName

/-- The aliases of the tables that every row has: the base, and what is joined firmly. -/
def firmAliases (source : FromClause) : List String :=
  source.base.aliasName ::
    (source.joins.filter fun join => join.kind == .inner).map fun join => join.table.aliasName

variable {source : FromClause}

theorem mem_outerAliases_of_join {join : Join} (h : join ∈ source.joins)
    (hkind : join.kind = .left) : join.table.aliasName ∈ source.outerAliases :=
  List.mem_map.2 ⟨join, List.mem_filter.2 ⟨h, by simp [hkind]⟩, rfl⟩

theorem mem_firmAliases_of_join {join : Join} (h : join ∈ source.joins)
    (hkind : join.kind = .inner) : join.table.aliasName ∈ source.firmAliases :=
  List.mem_cons_of_mem _ (List.mem_map.2 ⟨join, List.mem_filter.2 ⟨h, by simp [hkind]⟩, rfl⟩)

theorem base_mem_firmAliases : source.base.aliasName ∈ source.firmAliases := List.mem_cons_self

theorem outerAliases_eq_nil (h : ∀ join ∈ source.joins, join.kind = .inner) :
    source.outerAliases = [] := by
  rw [outerAliases, List.map_eq_nil_iff, List.filter_eq_nil_iff]
  intro join hjoin
  simp [h join hjoin]

/-- Where no two tables have the same alias, no table is joined in both ways. -/
theorem not_mem_outerAliases (hdistinct : source.aliases.Nodup) {aliasName : String}
    (h : aliasName ∈ source.firmAliases) : aliasName ∉ source.outerAliases := by
  rw [aliases, tables, List.map_cons, List.map_map] at hdistinct
  obtain ⟨hbase, hjoins⟩ := List.nodup_cons.1 hdistinct
  intro houter
  obtain ⟨other, hother, rfl⟩ := List.mem_map.1 houter
  obtain ⟨hother, hleft⟩ := List.mem_filter.1 hother
  rcases List.mem_cons.1 h with hsame | hfirm
  · exact hbase (hsame ▸ List.mem_map_of_mem hother)
  · obtain ⟨join, hjoin, hsame⟩ := List.mem_map.1 hfirm
    obtain ⟨hjoin, hinner⟩ := List.mem_filter.1 hjoin
    obtain rfl := List.inj_on_of_nodup_map hjoins hjoin hother hsame
    simp only [beq_iff_eq] at hinner hleft
    exact absurd (hinner.symm.trans hleft) (by decide)

end Sql.FromClause

/-- How a member of a scope is joined in a `FROM` clause: so that it may be missing if it is
optional within the scope, and firmly otherwise. -/
structure Member.JoinedIn (member : Member) (scopeRoot : Node) (source : Sql.FromClause) :
    Prop where
  outer : member.node.optionalWithin scopeRoot = true → member.aliasName ∈ source.outerAliases
  firm : member.node.optionalWithin scopeRoot = false → member.aliasName ∈ source.firmAliases

theorem Node.optionalWithin_self (node : Node) : node.optionalWithin node = false := by
  simp [Node.optionalWithin]

/-- The top vertex of a scope is joined firmly. -/
theorem Member.JoinedIn.of_top {node : Node} {aliasName : String} {source : Sql.FromClause}
    (h : aliasName ∈ source.firmAliases) : (Member.mk node aliasName).JoinedIn node source where
  outer hoptional := absurd hoptional (by simp [Node.optionalWithin_self])
  firm _ := h

/-- Where no two tables have the same alias, a member may be missing exactly if it is optional. -/
theorem Member.JoinedIn.mem_outerAliases_iff {member : Member} {scopeRoot : Node}
    {source : Sql.FromClause} (h : member.JoinedIn scopeRoot source)
    (hdistinct : source.aliases.Nodup) :
    member.aliasName ∈ source.outerAliases ↔ member.node.optionalWithin scopeRoot = true := by
  refine ⟨fun houter => ?_, h.outer⟩
  cases hoptional : member.node.optionalWithin scopeRoot with
  | true => rfl
  | false => exact absurd houter (Sql.FromClause.not_mem_outerAliases hdistinct (h.firm hoptional))

/-- A vertex that is bound below another one is joined as its place in the scope asks for. -/
theorem Binding.Made.joinedIn {target : Target} {binding : Binding} {supply later : Sql.AliasSupply}
    (h : binding.Made target supply later) {scopeRoot : Node} {source : Sql.FromClause}
    (hjoins : binding.joins scopeRoot ⊆ source.joins) :
    binding.child.JoinedIn scopeRoot source := by
  obtain ⟨traversal, table, -, -, -, hpath⟩ := h
  obtain ⟨found, -, hmem⟩ := hpath.exists_reference
  obtain ⟨hop, hhop, htable⟩ := List.mem_map.1 hmem
  have hjoin := hjoins (List.mem_map_of_mem hhop)
  have halias : (hop.join (binding.child.node.joinKind scopeRoot)).table.aliasName =
      binding.child.aliasName := by
    rw [JoinHop.join, htable]
    rfl
  constructor
  · intro hoptional
    rw [← halias]
    exact Sql.FromClause.mem_outerAliases_of_join hjoin
      (by simp [JoinHop.join, Node.joinKind, hoptional])
  · intro hfirm
    rw [← halias]
    exact Sql.FromClause.mem_firmAliases_of_join hjoin
      (by simp [JoinHop.join, Node.joinKind, hfirm])

/-- All members of a scope are joined as their places in it ask for. -/
theorem Members.MadeBy.joinedIn {members : Members} {target : Target} {scopeRoot : Node}
    {top : Member} {bindings : List Binding} {supply later : Sql.AliasSupply}
    (h : members.MadeBy target scopeRoot [top] bindings supply later) {source : Sql.FromClause}
    (htop : top.JoinedIn scopeRoot source) (hjoins : members.joins ⊆ source.joins) :
    ∀ m ∈ members.bound, m.JoinedIn scopeRoot source := by
  intro m hm
  rcases List.mem_append.1 (h.bound.mem_iff.1 hm) with hm | hm
  · exact List.mem_singleton.1 hm ▸ htop
  · obtain ⟨b, hb, rfl⟩ := List.mem_map.1 hm
    obtain ⟨_, _, hmade⟩ := h.made.made_of_mem hb
    refine hmade.joinedIn fun join hjoin => hjoins ?_
    rw [h.joins]
    exact List.mem_flatMap.2 ⟨b, hb, hjoin⟩

theorem firm_of_scopeSource {entry : Option RecursionEntry} {table : Table} {aliasName : String}
    {start : Sql.FromClause} (h : scopeSource entry table aliasName = .ok start) :
    aliasName ∈ start.firmAliases := by
  cases entry with
  | none =>
      obtain rfl := Except.ok.inj h
      exact Sql.FromClause.base_mem_firmAliases
  | some entry =>
      obtain ⟨key, -, h⟩ := bind_eq_ok_iff.1 h
      obtain rfl := pure_eq_ok_iff.1 h
      exact List.mem_cons_of_mem _ List.mem_cons_self

/-- What is joined firmly stays so when more is joined. -/
theorem Sql.FromClause.firmAliases_append (source : FromClause) (more : List Join) :
    source.firmAliases ⊆ (FromClause.mk source.base (source.joins ++ more)).firmAliases := by
  rw [firmAliases, firmAliases, List.filter_append, List.map_append]
  exact List.cons_subset_cons _ (List.subset_append_left _ _)

/-- The members of a scope are joined as they should be in its select. -/
theorem BaseMade.joinedIn {target : Target} {entry : Option RecursionEntry} {group : Group}
    {folds : List Group} {members : Members} {emission : ScopeEmission}
    {supply later : Sql.AliasSupply}
    (h : BaseMade target entry group folds members emission supply later) :
    ∀ m ∈ members.bound, m.JoinedIn group.node emission.query.source := by
  obtain ⟨table, start, outputs, folded, filters, bound, -, hstart, hmembers, -, -, -, rfl⟩ := h
  obtain ⟨bindings, hbindings, -⟩ := exists_bindings_of_bindGroup _ hmembers
  refine hbindings.joinedIn (.of_top ?_) ?_
  · rw [baseEmission, List.append_assoc]
    exact start.firmAliases_append _ (firm_of_scopeSource hstart)
  · exact fun join hjoin => List.mem_append_left _ (List.mem_append_right _ hjoin)

/-- The vertices of a fold are joined as they should be in its select. -/
theorem FoldMade.joinedIn {target : Target} {owner : Member} {fold : Group} {query : FoldQuery}
    {supply later : Sql.AliasSupply} (h : FoldMade target owner fold query supply later)
    {select : Sql.Select} (hselect : query.cte.plain? = some select) :
    ∀ m ∈ query.bound, m.JoinedIn fold.node select.source := by
  obtain ⟨traversal, table, first, rest, members, filters, outputs, joined, bound, -, -, hpath,
    hmembers, -, -, rfl, -⟩ := h
  obtain rfl := Option.some.inj hselect
  obtain ⟨bindings, hbindings, -⟩ := exists_bindings_of_bindGroup _ hmembers
  refine hbindings.joinedIn (.of_top ?_) (List.subset_append_right _ _)
  obtain ⟨found, -, hmem⟩ := hpath.exists_reference
  obtain ⟨hop, hhop, htable⟩ := List.mem_map.1 hmem
  have halias : hop.table.aliasName = (supply.nextAlias table.name).1 := by
    rw [htable]
    rfl
  rw [← halias]
  rcases List.mem_cons.1 hhop with rfl | hhop
  · exact Sql.FromClause.base_mem_firmAliases
  · have hjoin : hop.join .inner ∈ (Sql.FromClause.mk first.table
        (rest.map (JoinHop.join · .inner) ++ members.joins)).joins :=
      List.mem_append_left _ (List.mem_map_of_mem hhop)
    exact Sql.FromClause.mem_firmAliases_of_join hjoin rfl

end TraversalSql
