import TraversalSql.Proofs.Layout
import TraversalSql.Proofs.Matching
import TraversalSql.Proofs.PatternTree

/-!
The meaning of queries that only make plain crossings.  The statement of such a query gives exactly
the outputs of the ways to match its tree with rows.
-/

namespace TraversalSql

open Outcome

variable {D : Type} [DecidableEq D]

private theorem find?_eq_some_of_nodup {α β : Type} [DecidableEq β] {l : List α} {f : α → β}
    (hnodup : (l.map f).Nodup) {a : α} (ha : a ∈ l) : l.find? (fun b => f b == f a) = some a := by
  cases hfound : l.find? (fun b => f b == f a) with
  | none => exact absurd (List.find?_eq_none.1 hfound a ha) (by simp)
  | some b =>
      have hsame : f b = f a := by simpa using List.find?_some hfound
      rw [List.inj_on_of_nodup_map hnodup (List.mem_of_find?_eq_some hfound) ha hsame]

/-- What is known of the scope of a tree that makes plain crossings only: its members are the nodes
of the tree under aliases that differ, and its bindings are the crossings. -/
structure PlainScope (read : Blocks) (target : Target) (table : Table) (top : Member)
    (members : Members) (bindings : List Binding) (supply later : Sql.AliasSupply) : Prop where
  planted : Planted read.relations
  made : members.MadeBy target top.node [top] bindings supply later
  nodes : (members.bound.map Member.node).Perm read.tree.nodes
  top_id : top.node.id = 0
  table : target.schema.tableOf top.node.typeName = .ok table
  issued : ∃ earlier, Sql.AliasSupply.Issued earlier supply top.aliasName
  hangs : ∀ b ∈ bindings, b.child.node.parent = some b.parent.node.id
  child_ne : ∀ b ∈ bindings, b.child.node.id ≠ 0
  mandatory : ∀ node ∈ read.tree.nodes, node.relation.site.inOptional = false

namespace PlainScope

variable {read : Blocks} {target : Target} {table : Table} {top : Member} {members : Members}
  {bindings : List Binding} {supply later : Sql.AliasSupply}

theorem mem_tree (h : PlainScope read target table top members bindings supply later) {m : Member}
    (hm : m ∈ members.bound) : m.node ∈ read.tree.nodes :=
  h.nodes.subset (List.mem_map_of_mem hm)

theorem exists_member (h : PlainScope read target table top members bindings supply later)
    {node : Node} (hnode : node ∈ read.tree.nodes) : ∃ m ∈ members.bound, m.node = node :=
  List.mem_map.1 (h.nodes.mem_iff.2 hnode)

theorem eq_of_id_eq (h : PlainScope read target table top members bindings supply later)
    {node other : Node} (hnode : node ∈ read.tree.nodes) (hother : other ∈ read.tree.nodes)
    (hid : node.id = other.id) : node = other :=
  List.inj_on_of_nodup_map (Blocks.rooted_tree h.planted).arranged.distinct hnode hother hid

theorem eq_of_location_eq (h : PlainScope read target table top members bindings supply later)
    {node other : Node} (hnode : node ∈ read.tree.nodes) (hother : other ∈ read.tree.nodes)
    (hlocation : node.location = other.location) : node = other := by
  apply h.eq_of_id_eq hnode hother
  have hplace := Blocks.place?_location h.planted hnode
  rw [hlocation, Blocks.place?_location h.planted hother] at hplace
  exact (Option.some.inj hplace).symm

theorem not_optional (h : PlainScope read target table top members bindings supply later)
    {node : Node} (hnode : node ∈ read.tree.nodes) (scopeRoot : Node) :
    node.optionalWithin scopeRoot = false := by
  simp [Node.optionalWithin, h.mandatory node hnode]

theorem child_mem (h : PlainScope read target table top members bindings supply later)
    {b : Binding} (hb : b ∈ bindings) : b.child ∈ members.bound :=
  h.made.bound.mem_iff.2 (List.mem_append_right _ (List.mem_map_of_mem hb))

theorem parent_mem (h : PlainScope read target table top members bindings supply later)
    {b : Binding} (hb : b ∈ bindings) : b.parent ∈ members.bound :=
  h.made.bound.mem_iff.2 (h.made.made.parent_mem b hb)

theorem top_mem (h : PlainScope read target table top members bindings supply later) :
    top ∈ members.bound :=
  h.made.bound.mem_iff.2 (List.mem_append_left _ List.mem_cons_self)

/-- The crossings of a tree are those of its bindings. -/
theorem crosses_iff (h : PlainScope read target table top members bindings supply later)
    (stored : Sql.Stored D) (rows : Nat → Sql.Row D) :
    (rows top.node.id ∈ table.rows stored ∧
        ∀ b ∈ bindings, target.schema.Crosses stored b.parent.node b.child.node
          (rows b.parent.node.id) (rows b.child.node.id)) ↔
      (∀ node ∈ read.tree.nodes, ∃ table, target.schema.tableOf node.typeName = .ok table ∧
          rows node.id ∈ table.rows stored) ∧
        ∀ node ∈ read.tree.nodes, node.id ≠ 0 →
          ∃ above ∈ read.tree.nodes, node.parent = some above.id ∧
            ∃ traversal hops, node.relation.edge = some traversal ∧
              target.schema.hopsBetween above.typeName traversal node.typeName = .ok hops ∧
              target.schema.Connects stored hops (rows above.id) (rows node.id) := by
  have hcases : ∀ node ∈ read.tree.nodes,
      node = top.node ∨ ∃ b ∈ bindings, b.child.node = node := by
    intro node hnode
    obtain ⟨m, hm, rfl⟩ := h.exists_member hnode
    rcases List.mem_append.1 (h.made.bound.mem_iff.1 hm) with hm | hm
    · exact .inl (by rw [List.mem_singleton.1 hm])
    · obtain ⟨b, hb, rfl⟩ := List.mem_map.1 hm
      exact .inr ⟨b, hb, rfl⟩
  constructor
  · rintro ⟨htop, hcrosses⟩
    refine ⟨fun node hnode => ?_, fun node hnode hid => ?_⟩
    · rcases hcases node hnode with rfl | ⟨b, hb, rfl⟩
      · exact ⟨table, h.table, htop⟩
      · obtain ⟨traversal, table, hops, -, htable, hrow, -, -⟩ := hcrosses b hb
        exact ⟨table, htable, hrow⟩
    · rcases hcases node hnode with rfl | ⟨b, hb, rfl⟩
      · exact absurd h.top_id hid
      · obtain ⟨traversal, table, hops, hedge, -, -, hhops, hconnects⟩ := hcrosses b hb
        exact ⟨b.parent.node, h.mem_tree (h.parent_mem hb), h.hangs b hb, traversal, hops, hedge,
          hhops, hconnects⟩
  · rintro ⟨hstored, hconnected⟩
    refine ⟨?_, fun b hb => ?_⟩
    · obtain ⟨found, hfound, hrow⟩ := hstored _ (h.mem_tree h.top_mem)
      obtain rfl := Except.ok.inj (h.table.symm.trans hfound)
      exact hrow
    · have hchild := h.mem_tree (h.child_mem hb)
      obtain ⟨found, hfound, hrow⟩ := hstored _ hchild
      obtain ⟨above, habove, hparent, traversal, hops, hedge, hhops, hconnects⟩ :=
        hconnected _ hchild (h.child_ne b hb)
      have hid : above.id = b.parent.node.id :=
        Option.some.inj (hparent.symm.trans (h.hangs b hb))
      obtain rfl := h.eq_of_id_eq habove (h.mem_tree (h.parent_mem hb)) hid
      exact ⟨traversal, found, hops, hedge, hfound, hrow, hhops, hconnects⟩

/-- The rows that the joins of the scope put side by side are those to which the edges cross. -/
theorem exists_environment_iff (h : PlainScope read target table top members bindings supply later)
    (session : Sql.Session D) (tables : Sql.Tables D) (rows : Sql.Environment D) :
    (∃ environment ∈ Sql.FromClause.environments session tables
          ⟨table.reference top.aliasName, members.joins⟩,
        ∀ m ∈ members.bound, environment m.aliasName = rows m.aliasName) ↔
      rows top.aliasName ∈ table.rows tables.stored ∧
        ∀ b ∈ bindings, target.schema.Crosses tables.stored b.parent.node b.child.node
          (rows b.parent.aliasName) (rows b.child.aliasName) := by
  have hinner : ∀ b ∈ bindings, b.child.node.joinKind top.node = .inner := by
    intro b hb
    rw [Node.joinKind, h.not_optional (h.mem_tree (h.child_mem hb))]
    rfl
  have hnodup : ([top].map Member.aliasName ++ bindings.flatMap Binding.aliases).Nodup := by
    apply h.made.made.nodup_all_aliases (by simp)
    intro m hm
    rw [List.mem_singleton.1 hm]
    exact h.issued
  have hfresh := (List.nodup_append'.1 hnodup).2.2
  have hjoins := fun environment hknown => h.made.made.exists_extended_iff hinner hfresh session
    tables environment rows hknown
  have hbound : ∀ environment : Sql.Environment D,
      (∀ m ∈ members.bound, environment m.aliasName = rows m.aliasName) ↔
        environment top.aliasName = rows top.aliasName ∧
          ∀ m ∈ bindings.map Binding.child, environment m.aliasName = rows m.aliasName := by
    intro environment
    simp only [h.made.bound.mem_iff, List.singleton_append, List.forall_mem_cons]
  have htop : ∀ (base extended : Sql.Environment D),
      extended ∈ Sql.extendAll session tables members.joins base →
        extended top.aliasName = base top.aliasName := by
    intro base extended hextended
    apply Sql.extendAll_of_not_mem hextended
    rw [h.made.joins, h.made.made.map_aliasName_joins]
    exact hfresh List.mem_cons_self
  simp only [Sql.FromClause.environments, List.mem_flatMap, hbound]
  constructor
  · rintro ⟨extended, ⟨base, hmem, hextended⟩, hsame, hrows⟩
    obtain ⟨row, hrow, rfl⟩ := List.mem_map.1 hmem
    have hbase := (htop _ _ hextended).symm.trans hsame
    rw [h.made.joins] at hextended
    refine ⟨?_, (hjoins _ (by simpa using hbase)).1 ⟨extended, hextended, hrows⟩⟩
    rw [← hbase]
    exact (Sql.Environment.bind_self _ _ _).symm ▸ hrow
  · rintro ⟨hrow, hcrosses⟩
    let base := (Sql.Environment.unbound D).bind top.aliasName (rows top.aliasName)
    have hbase : base top.aliasName = rows top.aliasName := Sql.Environment.bind_self _ _ _
    obtain ⟨extended, hextended, hrows⟩ := (hjoins base (by simpa using hbase)).2 hcrosses
    rw [← h.made.joins] at hextended
    exact ⟨extended, ⟨base, List.mem_map.2 ⟨rows top.aliasName, hrow, rfl⟩, hextended⟩,
      (htop _ _ hextended).trans hbase, hrows⟩

/-- A member is found by its node. -/
theorem find?_node (h : PlainScope read target table top members bindings supply later) {m : Member}
    (hm : m ∈ members.bound) : members.find? m.node.id = some m := by
  apply find?_eq_some_of_nodup (f := fun m : Member => m.node.id) _ hm
  have hids := (h.nodes.map Node.id).nodup_iff.2 (Blocks.rooted_tree h.planted).arranged.distinct
  rwa [List.map_map] at hids

theorem nodup_aliases (h : PlainScope read target table top members bindings supply later) :
    (members.bound.map Member.aliasName).Nodup := by
  apply h.made.nodup_aliases (by simp)
  intro m hm
  rw [List.mem_singleton.1 hm]
  exact h.issued

omit [DecidableEq D] in
/-- Rows under the aliases of the members are rows of the nodes. -/
theorem exists_rows (h : PlainScope read target table top members bindings supply later)
    (environment : Sql.Environment D) :
    ∃ rows : Nat → Sql.Row D, ∀ m ∈ members.bound, environment m.aliasName = rows m.node.id := by
  refine ⟨fun id => environment (((members.find? id).map Member.aliasName).getD ""), ?_⟩
  intro m hm
  simp only [h.find?_node hm, Option.map_some, Option.getD_some]

omit [DecidableEq D] in
/-- Rows of the nodes are rows under the aliases of the members. -/
theorem exists_environment (h : PlainScope read target table top members bindings supply later)
    (rows : Nat → Sql.Row D) :
    ∃ environment : Sql.Environment D,
      ∀ m ∈ members.bound, environment m.aliasName = rows m.node.id := by
  refine ⟨fun aliasName => ((members.bound.find? fun m => m.aliasName == aliasName).map
    fun m => rows m.node.id).getD (Sql.Row.missing D), ?_⟩
  intro m hm
  simp only [find?_eq_some_of_nodup h.nodup_aliases hm, Option.map_some, Option.getD_some]

omit [DecidableEq D] in
/-- A field of a member is a column under its alias. -/
theorem fieldValue_iff (h : PlainScope read target table top members bindings supply later)
    {environment : Sql.Environment D} {rows : Nat → Sql.Row D}
    (hagree : ∀ m ∈ members.bound, environment m.aliasName = rows m.node.id)
    {m : Member} (hm : m ∈ members.bound) {field column : String}
    (hcolumn : target.schema.columnOf m.node.typeName field = .ok column) (value : Option D) :
    read.tree.FieldValue target.schema rows ⟨m.node.location, field⟩ value ↔
      value = environment m.aliasName column := by
  rw [hagree m hm]
  constructor
  · rintro ⟨node, hnode, found, hlocation, hfound, rfl⟩
    obtain rfl := h.eq_of_location_eq hnode (h.mem_tree hm) hlocation
    rw [hcolumn] at hfound
    rw [Except.ok.inj hfound]
  · rintro rfl
    exact ⟨m.node, h.mem_tree hm, column, rfl, hcolumn, rfl⟩

/-- What the bindings say of rows under aliases, they say of the rows of the nodes. -/
theorem agree_iff (h : PlainScope read target table top members bindings supply later)
    {environment : Sql.Environment D} {rows : Nat → Sql.Row D}
    (hagree : ∀ m ∈ members.bound, environment m.aliasName = rows m.node.id)
    {stored : Sql.Stored D} :
    (environment top.aliasName ∈ table.rows stored ∧
        ∀ b ∈ bindings, target.schema.Crosses stored b.parent.node b.child.node
          (environment b.parent.aliasName) (environment b.child.aliasName)) ↔
      rows top.node.id ∈ table.rows stored ∧
        ∀ b ∈ bindings, target.schema.Crosses stored b.parent.node b.child.node
          (rows b.parent.node.id) (rows b.child.node.id) := by
  rw [hagree top h.top_mem]
  refine and_congr_right fun _ => forall₂_congr fun b hb => ?_
  rw [hagree _ (h.parent_mem hb), hagree _ (h.child_mem hb)]

omit [DecidableEq D] in
/-- The operand of a tag stands for the value of the tagged field, and is never missing. -/
theorem exists_tagged (h : PlainScope read target table top members bindings supply later)
    {environment : Sql.Environment D} {rows : Nat → Sql.Row D}
    (hagree : ∀ m ∈ members.bound, environment m.aliasName = rows m.node.id)
    {m : Member} (hm : m ∈ members.bound) {p : NodePredicate} (hp : p ∈ m.node.predicates)
    {tag : Option Operand} (htag : members.Tagged target.schema top.node p tag)
    (hsome : tag.isSome ↔ p.predicate.tag.isSome) (session : Sql.Session D) :
    ∃ values : List (Option D),
      (∀ tagged, List.Forall₂ (read.tree.FieldValue target.schema rows) p.predicate.tag.toList
        tagged ↔ tagged = values) ∧
      (tag.map Operand.column).toList.map (Sql.Expr.compared session environment) =
        values.map (fun value => ⟨value, [value]⟩) ∧
      (tag.map Operand.guards).getD [] = [] := by
  rcases htag with ⟨ref, id, other, column, href, hid, hother, hcolumn, rfl⟩ | ⟨-, rfl⟩
  · have hmem := List.mem_of_find?_eq_some hother
    have hsame : other.node.id = id := by simpa using List.find?_some hother
    have hlocation : other.node.location = ref.location := by
      have hnode := (Blocks.location_of_mem_predicates (h.mem_tree hm) hp).2
      rw [href, Option.bind_some, hid] at hnode
      obtain ⟨node, hnode, hid, hlocation⟩ := Blocks.exists_node_of_place? hnode.symm
      rw [← hlocation, h.eq_of_id_eq hnode (h.mem_tree hmem) (hid.trans hsame.symm)]
    have hfield := h.fieldValue_iff hagree hmem hcolumn
    rw [hlocation] at hfield
    refine ⟨[environment other.aliasName column], fun tagged => ?_, ?_, ?_⟩
    · rw [href, Option.toList_some]
      constructor
      · rintro (_ | ⟨hvalue, ⟨⟩⟩)
        rw [(hfield _).1 hvalue]
      · rintro rfl
        exact .cons ((hfield _).2 rfl) .nil
    · simp [Sql.Expr.compared, Sql.Expr.value]
    · simp [Operand.guards, h.not_optional (h.mem_tree hmem)]
  · have hnone : p.predicate.tag = none := by simpa using hsome
    refine ⟨[], fun tagged => ?_, rfl, rfl⟩
    rw [hnone, Option.toList_none, List.forall₂_nil_left_iff]

/-- The condition of a filter of a member is true exactly if the filter is. -/
theorem truth_filter_iff (h : PlainScope read target table top members bindings supply later)
    {environment : Sql.Environment D} {rows : Nat → Sql.Row D}
    (hagree : ∀ m ∈ members.bound, environment m.aliasName = rows m.node.id)
    {m : Member} (hm : m ∈ members.bound) {p : NodePredicate} (hp : p ∈ m.node.predicates)
    {condition : Sql.Expr} (hfilter : members.filter target.schema top.node m p = .ok condition)
    (session : Sql.Session D) :
    condition.truth session environment = some true ↔
      read.tree.Holds target.schema session rows p.predicate := by
  obtain ⟨column, tag, comparison, hcolumn, htag, hsome, hcomparison, rfl⟩ :=
    Members.exists_of_filter_eq_ok hfilter
  have hvalue := h.fieldValue_iff hagree hm hcolumn
  rw [← (Blocks.location_of_mem_predicates (h.mem_tree hm) hp).1] at hvalue
  obtain ⟨values, hvalues, hcompared, hguards⟩ :=
    h.exists_tagged hagree hm hp htag hsome session
  have hunguarded : Operand.guardsOf ⟨.column m.aliasName column,
      m.node.optionalWithin top.node⟩ tag = [] := by
    rw [Operand.guardsOf, hguards, h.not_optional (h.mem_tree hm)]
    rfl
  have hoperands : (p.predicate.values tag).map (Sql.Expr.compared session environment) =
      values.map (fun value => ⟨value, [value]⟩) ++ p.predicate.params.map session.operand := by
    rw [Predicate.values, List.map_append, hcompared, List.map_map]
    rfl
  rw [hunguarded, guarded, List.isEmpty_nil, if_pos rfl, truth_comparison hcomparison, hoperands]
  constructor
  · intro htrue
    exact ⟨_, values, (hvalue _).2 rfl, (hvalues _).2 rfl, htrue⟩
  · rintro ⟨value, tagged, hfield, htagged, htrue⟩
    rw [(hvalue _).1 hfield, (hvalues _).1 htagged] at htrue
    exact htrue

/-- The conditions of a scope hold together exactly if all filters of the tree are true. -/
theorem holdAll_filters_iff (h : PlainScope read target table top members bindings supply later)
    {environment : Sql.Environment D} {rows : Nat → Sql.Row D}
    (hagree : ∀ m ∈ members.bound, environment m.aliasName = rows m.node.id)
    {filters : List Sql.Expr} (hfilters : members.filters target.schema top.node = .ok filters)
    (session : Sql.Session D) :
    Sql.holdAll session filters environment ↔
      ∀ node ∈ read.tree.nodes, ∀ p ∈ node.predicates,
        read.tree.Holds target.schema session rows p.predicate := by
  rw [Sql.holdAll_iff]
  constructor
  · intro hholds node hnode p hp
    obtain ⟨m, hm, rfl⟩ := h.exists_member hnode
    have hmem : (m, p) ∈ members.bound.flatMap fun m => m.node.predicates.map fun p => (m, p) :=
      List.mem_flatMap.2 ⟨m, hm, List.mem_map_of_mem hp⟩
    obtain ⟨condition, hcondition, hfilter⟩ := exists_answer hfilters hmem
    exact (h.truth_filter_iff hagree hm hp hfilter session).1 (hholds condition hcondition)
  · intro hholds condition hcondition
    obtain ⟨⟨m, p⟩, hmem, hfilter⟩ := exists_source hfilters hcondition
    obtain ⟨other, hm, hmem⟩ := List.mem_flatMap.1 hmem
    obtain ⟨_, hp, hsame⟩ := List.mem_map.1 hmem
    obtain ⟨rfl, rfl⟩ := Prod.mk.inj hsame
    exact (h.truth_filter_iff hagree hm hp hfilter session).2 (hholds _ (h.mem_tree hm) _ hp)

/-- A column stands for an output: it is the column of the field under the alias of its vertex. -/
def ColumnOf (_ : PlainScope read target table top members bindings supply later)
    (output : String × FieldRef) (column : ScopeColumn) : Prop :=
  ∃ m ∈ members.bound, ∃ name, m.node.location = output.2.location ∧
    target.schema.columnOf m.node.typeName output.2.field = .ok name ∧
    column.expression = .column m.aliasName name

/-- The columns of a scope stand for the outputs of the query. -/
theorem forall₂_columns (h : PlainScope read target table top members bindings supply later)
    {outputs : List (NodeOutput × Sql.Expr)}
    (houtputs : members.outputs target.schema = .ok outputs)
    {columns : List ScopeColumn}
    (hcolumns : columns = QueryTree.sortedOutputs
      (outputs.map fun (output, column) => .ofOutput output column))
    (hcomplete : read.tree.isComplete columns) :
    List.Forall₂ h.ColumnOf read.outputs columns := by
  apply QueryTree.forall₂_of_isComplete hcomplete rfl
  intro column hcolumn index hindex
  rw [hcolumns, QueryTree.mem_sortedOutputs_iff] at hcolumn
  obtain ⟨⟨output, expression⟩, hmem, rfl⟩ := List.mem_map.1 hcolumn.1
  obtain rfl : output.index = index := Option.some.inj hindex
  obtain ⟨m, hm, hout, name, hname, rfl⟩ := Members.exists_of_mem_outputs houtputs hmem
  obtain ⟨source, hget, hfield, hlocation⟩ :=
    Blocks.exists_source_of_mem_outputs (h.mem_tree hm) hout
  refine ⟨_, hget, m, hm, name, hlocation, ?_, rfl⟩
  rw [hfield]
  exact hname

omit [DecidableEq D] in
/-- The values of the columns are the values of the outputs. -/
theorem values_iff (h : PlainScope read target table top members bindings supply later)
    {environment : Sql.Environment D} {rows : Nat → Sql.Row D}
    (hagree : ∀ m ∈ members.bound, environment m.aliasName = rows m.node.id)
    {outputs : List (String × FieldRef)} {columns : List ScopeColumn}
    (hcolumns : List.Forall₂ h.ColumnOf outputs columns) (session : Sql.Session D)
    (tuple : List (Option D)) :
    tuple = columns.map (fun column => column.expression.value session environment) ↔
      List.Forall₂ (fun output => read.tree.FieldValue target.schema rows output.2) outputs
        tuple := by
  induction hcolumns generalizing tuple with
  | nil => simp
  | @cons output column outputs columns hcolumn _ ih =>
      obtain ⟨m, hm, name, hlocation, hname, hexpression⟩ := hcolumn
      have hvalue := h.fieldValue_iff hagree hm hname
      rw [hlocation] at hvalue
      rw [List.map_cons, hexpression, Sql.Expr.value, List.forall₂_cons_left_iff]
      constructor
      · rintro rfl
        exact ⟨_, _, (hvalue _).2 rfl, (ih _).1 rfl, rfl⟩
      · rintro ⟨value, rest, hfield, hrest, rfl⟩
        rw [(hvalue _).1 hfield, (ih _).2 hrest]

end PlainScope

/-- The root of a tree hangs off nothing. -/
theorem Blocks.id_ne_zero_of_parent {read : Blocks} {node : Node} (hnode : node ∈ read.tree.nodes)
    {parent : Nat} (hparent : node.parent = some parent) : node.id ≠ 0 := by
  obtain ⟨place, relation, -, rfl⟩ := Blocks.mem_nodes_tree_iff.1 hnode
  rintro (rfl : place = 0)
  exact absurd hparent (by simp [Blocks.nodeAt, bareNode, parentPlace])

/-- A scope all of whose vertices are reached by plain crossings has neither folds nor
recursions. -/
theorem Scope.CutFrom.plain {read : Blocks} (hplanted : Planted read.relations) {root : Scope}
    (hroot : root ∈ QueryTree.scopes read.tree.nodes)
    (hplain : ∀ node ∈ read.tree.nodes, node.id ≠ 0 → node.relation.kind = .traverse) :
    root.folds = [] ∧ root.recursions = [] := by
  have harranged := (Blocks.rooted_tree hplanted).arranged
  have hcut := Scope.cutFrom_of_mem_scopes harranged hroot
  have hmem : ∀ scope ∈ QueryTree.scopes read.tree.nodes, scope.node ∈ read.tree.nodes :=
    fun scope hscope =>
      (Scope.cutFrom_of_mem_scopes harranged hscope).mem _ scope.node_mem_nodes_group
  constructor
  · rw [List.eq_nil_iff_forall_not_mem]
    intro group hgroup
    obtain ⟨hkind, ⟨fold, hfold, rfl⟩, owner, -, hparent⟩ := hcut.folds group hgroup
    have hnode := hmem fold hfold
    have htraverse := hplain _ hnode (Blocks.id_ne_zero_of_parent hnode hparent)
    rw [Scope.node] at htraverse
    exact absurd hkind (by simp [htraverse, RelationKind.isFold])
  · rw [List.eq_nil_iff_forall_not_mem]
    intro recursion hrecursion
    obtain ⟨hkind, hscope, owner, -, hparent⟩ := hcut.recursions recursion hrecursion
    have hnode := hmem recursion hscope
    have htraverse := hplain _ hnode (Blocks.id_ne_zero_of_parent hnode hparent)
    exact absurd hkind (by simp [htraverse, RelationKind.isRecursion])

/-- What the emission of a tree that makes plain crossings only comes to. -/
theorem exists_plainScope {read : Blocks} {target : Target} (hread : Assemblable read)
    (hplain : ∀ node ∈ read.tree.nodes, node.id ≠ 0 → node.relation.kind = .traverse)
    (hmandatory : ∀ node ∈ read.tree.nodes, node.relation.site.inOptional = false)
    {emission : ScopeEmission} (h : read.tree.emission target = .ok emission) :
    ∃ table top members bindings supply later outputs filters,
      PlainScope read target table top members bindings supply later ∧
      members.outputs target.schema = .ok outputs ∧
      members.filters target.schema top.node = .ok filters ∧ emission.ctes = [] ∧
      emission.query = {
        source := ⟨table.reference top.aliasName, members.joins⟩
        filters
        columns := QueryTree.sortedOutputs
          (outputs.map fun (output, column) => .ofOutput output column) } ∧
      read.tree.isComplete emission.query.columns := by
  obtain ⟨root, made, last, hroot, hmade, hcomplete, rfl⟩ := QueryTree.exists_of_emission_eq_ok h
  have htree := Blocks.rooted_tree hread.planted
  obtain ⟨rest, hnodes, hmem⟩ := QueryTree.rootScope?_eq_some hroot
  obtain ⟨hfolds, hrecursions⟩ := Scope.CutFrom.plain hread.planted hmem hplain
  have hcut := Scope.cutFrom_of_mem_scopes htree.arranged hmem
  obtain ⟨members, table, start, outputs, folded, filters, bound, htable, hstart, hmembers,
    houtputs, hfolded, hfilters, rfl⟩ := baseMade_of_emitScope hrecursions hmade
  rw [hfolds] at hfolded
  cases hfolded
  obtain rfl := Except.ok.inj hstart
  obtain ⟨bindings, hbindings, hbound, hhangs, -⟩ := exists_bindings_of_bindGroup _ hmembers
  have hunnested : root.Unnested := by
    intro scope hwithin fold hfold
    have hscope := hwithin.mem_scopes htree.arranged hmem
    rw [(Scope.CutFrom.plain hread.planted hscope hplain).1] at hfold
    exact absurd hfold List.not_mem_nil
  have hperm := QueryTree.nodes_rootScope_perm htree hroot hunnested
  rw [Scope.nodes_eq, hfolds, hrecursions, ← hbound] at hperm
  have hpermNodes : (members.bound.map Member.node).Perm read.tree.nodes := by simpa using hperm
  have hchildren : ∀ b ∈ bindings, b.child.node ∈ read.tree.nodes := by
    intro b hb
    apply hpermNodes.subset
    apply List.mem_map_of_mem
    exact hbindings.bound.mem_iff.2 (List.mem_append_right _ (List.mem_map_of_mem hb))
  have hid : root.node.id = 0 := by
    obtain ⟨relation, -, hnode⟩ := Blocks.exists_first_of_rootScope? hroot
    rw [hnode]
    rfl
  have hscope : PlainScope read target table
      ⟨root.node, (Sql.AliasSupply.fresh.nextAlias table.name).1⟩ members bindings
      (Sql.AliasSupply.fresh.nextAlias table.name).2 last := {
    planted := hread.planted
    made := hbindings
    nodes := hpermNodes
    top_id := hid
    table := htable
    issued := ⟨_, Sql.AliasSupply.issued_next _ _⟩
    hangs := fun b hb => (hcut.hangs _ _ (hhangs b hb)).1
    child_ne := fun b hb =>
      Blocks.id_ne_zero_of_parent (hchildren b hb) (hcut.hangs _ _ (hhangs b hb)).1
    mandatory := hmandatory }
  refine ⟨table, _, members, bindings, _, last, outputs, filters, hscope, houtputs, hfilters, rfl,
    ?_, hcomplete⟩
  simp [baseEmission, entryColumns]

namespace QueryTree

/-- The emitted statement of a tree that makes plain crossings only denotes, over any database and
with any parameters, exactly the outputs of the ways to match the tree. -/
theorem denotes_matches {read : Blocks} {tree : QueryTree} {target : Target}
    {statement : Sql.Statement} (hread : QueryTree.ofBlocks read = .ok tree)
    (hplain : ∀ node ∈ tree.nodes, node.id ≠ 0 → node.relation.kind = .traverse)
    (hmandatory : ∀ node ∈ tree.nodes, node.relation.site.inOptional = false)
    (hstatement : tree.statement target = .ok statement)
    (session : Sql.Session D) (stored : Sql.Stored D) :
    ∃ tuples, (∀ others, statement.Denotes session stored others ↔ others = tuples) ∧
      ∀ tuple, tuple ∈ tuples ↔
        ∃ rows, tree.Matches target.schema session stored rows ∧
          List.Forall₂ (fun output => tree.FieldValue target.schema rows output.2) read.outputs
            tuple := by
  obtain ⟨hassemblable, rfl⟩ := ofBlocks_eq_ok_iff.1 hread
  obtain ⟨emission, hemission, hctes, hbody⟩ := exists_of_statement_eq_ok hstatement
  obtain ⟨table, top, members, bindings, supply, later, outputs, filters, hscope, houtputs,
    hfilters, hnil, hquery, hcomplete⟩ :=
    exists_plainScope hassemblable hplain hmandatory hemission
  have hsorted : emission.query.columns = sortedOutputs
      (outputs.map fun (output, column) => .ofOutput output column) := by rw [hquery]
  have hcolumns := hscope.forall₂_columns houtputs hsorted hcomplete
  refine ⟨_, fun others => Sql.Statement.denotes_iff_of_ctes_eq_nil (hctes.trans hnil),
    fun tuple => ?_⟩
  have hitems : ∀ item ∈ statement.body.items,
      ∃ table name, item.expression = .column table name := by
    intro item hitem
    rw [hbody] at hitem
    obtain ⟨column, hcolumn, rfl⟩ := List.mem_map.1 hitem
    obtain ⟨output, -, m, -, name, -, -, hexpression⟩ :=
      exists_left_of_forall₂ hcolumns hcolumn
    exact ⟨m.aliasName, name, hexpression⟩
  have hgroup : statement.body.groupBy = [] := by rw [hbody]; rfl
  have hsource : statement.body.source = ⟨table.reference top.aliasName, members.joins⟩ := by
    rw [hbody, hquery]
    rfl
  have hwhere : statement.body.filters = filters := by
    rw [hbody, hquery]
    rfl
  have hvalues : ∀ environment : Sql.Environment D,
      statement.body.items.map (fun item => item.expression.value session environment) =
        emission.query.columns.map fun column =>
          column.expression.value session environment := by
    intro environment
    rw [hbody, ScopeQuery.select, List.map_map]
    rfl
  rw [Sql.Select.mem_tuples_iff hgroup hitems, hsource, hwhere]
  simp only [hvalues]
  constructor
  · rintro ⟨environment, henvironment, hholds, htuple⟩
    -- No two vertices share an id, so the environment gives each of them its row.
    obtain ⟨rows, hagree⟩ := hscope.exists_rows environment
    have hcrosses := (hscope.exists_environment_iff session _ environment).1
      ⟨environment, henvironment, fun _ _ => rfl⟩
    rw [hscope.agree_iff hagree, hscope.crosses_iff] at hcrosses
    have hfiltered := (hscope.holdAll_filters_iff hagree hfilters session).1 hholds
    exact ⟨rows, ⟨hcrosses.1, hcrosses.2, hfiltered⟩,
      (hscope.values_iff hagree hcolumns session tuple).1 htuple⟩
  · rintro ⟨rows, hmatches, hfields⟩
    -- The rows of the junctions are not among those of the vertices: the environment that is joined
    -- agrees with the wanted one on the vertices only.
    obtain ⟨wanted, hwanted⟩ := hscope.exists_environment rows
    have hcrosses := (hscope.crosses_iff stored rows).2 ⟨hmatches.typed, hmatches.connected⟩
    rw [← hscope.agree_iff hwanted] at hcrosses
    obtain ⟨environment, henvironment, hsame⟩ :=
      (hscope.exists_environment_iff session ⟨stored, fun _ => []⟩ wanted).2 hcrosses
    have hagree : ∀ m ∈ members.bound, environment m.aliasName = rows m.node.id :=
      fun m hm => (hsame m hm).trans (hwanted m hm)
    exact ⟨environment, henvironment,
      (hscope.holdAll_filters_iff hagree hfilters session).2 hmatches.filtered,
      (hscope.values_iff hagree hcolumns session tuple).2 hfields⟩

/-- Animals, the species of each, and the sites where they are kept, to which a junction leads. -/
def zoo : Target where
  dialect := .postgresql
  schema := {
    tables := .ofList [
      ("animal", ⟨"animal", none, ["id", "name", "species_id"], ["id"],
        [.single "species_id" "species" "id"]⟩),
      ("species", ⟨"species", none, ["id", "name"], ["id"], []⟩),
      ("site", ⟨"site", some "estate", ["id", "city"], ["id"], []⟩),
      ("housing", ⟨"housing", none, ["animal_id", "site_id"], [], []⟩)]
    vertexTypes := .ofList [
      ("Animal", ⟨some "animal", .empty, .ofList [("keptAt", ⟨"Site",
        .junction ⟨"id", "animal_id", some "housing"⟩ ⟨"site_id", "id", none⟩⟩)]⟩),
      ("Species", ⟨some "species", .empty, .empty⟩),
      ("Site", ⟨some "site", .ofList [("town", "city")], .empty⟩)] }
  maxRecursionDepth := 10
  combinator := none

/-- Animals of given names with their species, kept in towns that are called after them. -/
def herd : Pattern where
  startClass := "Animal"
  vertex := ⟨"Animal", [⟨"name", .inCollection, ["names"], none⟩], [⟨"name", "animal"⟩]⟩
  branches :=
    .branch ⟨⟨"species", .outward⟩, .mandatory⟩ ⟨"Species", [], [⟨"name", "species"⟩]⟩ .none <|
    .branch ⟨⟨"keptAt", .outward⟩, .mandatory⟩
      ⟨"Site", [⟨"town", .hasSubstring, [], some ⟨.root "Animal", "name"⟩⟩], [⟨"town", "town"⟩]⟩
      .none .none

theorem denotes_matches_herd :
    ∃ statement, herd.tree.statement zoo = .ok statement ∧
      ∀ (session : Sql.Session String) (stored : Sql.Stored String),
        ∃ tuples, (∀ others, statement.Denotes session stored others ↔ others = tuples) ∧
          ∀ tuple, tuple ∈ tuples ↔
            ∃ rows, herd.tree.Matches zoo.schema session stored rows ∧
              List.Forall₂ (fun output => herd.tree.FieldValue zoo.schema rows output.2)
                herd.blocks.outputs tuple := by
  have hread : QueryTree.ofBlocks herd.blocks = .ok herd.tree := by rfl
  have hok : (herd.tree.statement zoo).isOk = true := by cbv
  cases hstatement : herd.tree.statement zoo with
  | error e =>
      rw [hstatement] at hok
      exact absurd hok Bool.false_ne_true
  | ok statement =>
      exact ⟨statement, rfl, denotes_matches hread (by decide) (by decide) hstatement⟩

end QueryTree

end TraversalSql
