import TraversalSql.Emission.Recursion
import TraversalSql.Proofs.Binding
import TraversalSql.Proofs.Condition
import TraversalSql.Proofs.Semantics

/-!
What a tree of plain crossings asks of a database: a row of its table for each vertex, such that
rows of neighbours are connected by the edge between them and every filter is true.  The joins of
bindings put rows side by side exactly if the edges connect them, and the comparison of a filter has
the truth that its operator gives.
-/

namespace TraversalSql

open Outcome

variable {D : Type} [DecidableEq D]

omit [DecidableEq D] in
def Table.rows (table : Table) (stored : Sql.Stored D) : List (Sql.Row D) :=
  stored table.qualifier table.name

/-- Rows that the hops of an edge connect, by a row of the junction if there is one. -/
def Schema.Connects (schema : Schema) (stored : Sql.Stored D) :
    List Hop → Sql.Row D → Sql.Row D → Prop
  | [⟨outerColumn, .vertex, innerColumn⟩], outer, inner =>
      Sql.Engine.equal (outer outerColumn) (inner innerColumn) = some true
  | ⟨outerColumn, .junction name, innerColumn⟩ :: rest, outer, inner =>
      ∃ junction, schema.table? name = some junction ∧ ∃ row ∈ junction.rows stored,
        Sql.Engine.equal (outer outerColumn) (row innerColumn) = some true ∧
          schema.Connects stored rest row inner
  | _, _, _ => False

omit [DecidableEq D] in
/-- A value with a wildcard before it, after it, or both. -/
def Sql.Engine.pattern (engine : Sql.Engine D) (leading trailing : Bool) (value : Option D) :
    Option D :=
  let wildcard := fun present : Bool => if present then [engine.constant (.string "%")] else []
  ((wildcard leading ++ [value] ++ wildcard trailing).mapM id).bind engine.concatenate

/-- What a filter with an operator says about a value and the operands of the filter. -/
def FilterOperator.test (engine : Sql.Engine D) (operator : FilterOperator) (value : Option D)
    (operands : List (Sql.Compared D)) : Sql.Truth :=
  match operator, operands with
  | .equal, [x] => Sql.Engine.equal value x.one
  | .notEqual, [x] => (Sql.Engine.equal value x.one).negate
  | .less, [x] => engine.less value x.one
  | .greater, [x] => engine.less x.one value
  | .lessOrEqual, [x] => engine.atMost value x.one
  | .greaterOrEqual, [x] => engine.atMost x.one value
  | .hasSubstring, [x] => Sql.Truth.compare engine.isLike value (engine.pattern true true x.one)
  | .startsWith, [x] => Sql.Truth.compare engine.isLike value (engine.pattern false true x.one)
  | .endsWith, [x] => Sql.Truth.compare engine.isLike value (engine.pattern true false x.one)
  | .inCollection, [x] => Sql.Engine.isAmong value x.many
  | .notInCollection, [x] => (Sql.Engine.isAmong value x.many).negate
  | .between, [x, y] => Sql.Truth.all [engine.atMost x.one value, engine.atMost value y.one]
  | _, _ => none

omit [DecidableEq D] in
/-- A parameter as the operand of a filter. -/
def Sql.Session.operand (session : Sql.Session D) (parameter : String) : Sql.Compared D :=
  ⟨session.one parameter, session.many parameter⟩

namespace QueryTree

omit [DecidableEq D] in
/-- The value of a field of the vertex at a location, when each node has a row. -/
def FieldValue (tree : QueryTree) (schema : Schema) (rows : Nat → Sql.Row D) (source : FieldRef)
    (value : Option D) : Prop :=
  ∃ node ∈ tree.nodes, ∃ column, node.location = source.location ∧
    schema.columnOf node.typeName source.field = .ok column ∧ value = rows node.id column

/-- A filter is true when each node has a row: of the value of its field, of the value of its tag
if it has one, and of its parameters. -/
def Holds (tree : QueryTree) (schema : Schema) (session : Sql.Session D) (rows : Nat → Sql.Row D)
    (predicate : Predicate) : Prop :=
  ∃ value tagged, tree.FieldValue schema rows ⟨predicate.site.location, predicate.field⟩ value ∧
    List.Forall₂ (tree.FieldValue schema rows) predicate.tag.toList tagged ∧
    predicate.operator.test session.toEngine value
      (tagged.map (fun value => ⟨value, [value]⟩) ++ predicate.params.map session.operand) =
        some true

/-- A row for each node that is what a tree of plain crossings asks for: it is a row of the table
of the type of the node, the edge to the node connects the row of the parent with it, and all
filters are true. -/
structure Matches (tree : QueryTree) (schema : Schema) (session : Sql.Session D)
    (stored : Sql.Stored D) (rows : Nat → Sql.Row D) : Prop where
  typed : ∀ node ∈ tree.nodes, ∃ table, schema.tableOf node.typeName = .ok table ∧
    rows node.id ∈ table.rows stored
  connected : ∀ node ∈ tree.nodes, node.id ≠ 0 →
    ∃ above ∈ tree.nodes, node.parent = some above.id ∧
      ∃ traversal hops, node.relation.edge = some traversal ∧
        schema.hopsBetween above.typeName traversal node.typeName = .ok hops ∧
        schema.Connects stored hops (rows above.id) (rows node.id)
  filtered : ∀ node ∈ tree.nodes, ∀ p ∈ node.predicates,
    tree.Holds schema session rows p.predicate

end QueryTree

theorem truth_equals_column (session : Sql.Session D) (environment : Sql.Environment D)
    (table column other name : String) :
    (Sql.Expr.equals (.column table column) (.column other name)).truth session environment =
      Sql.Engine.equal (environment table column) (environment other name) := by
  simp [Sql.Expr.equals, Sql.Expr.truth_apply, Sql.Engine.test, Sql.Expr.compared, Sql.Expr.value]

/-- A hop leads to the rows of its table that have the value of the row left. -/
theorem mem_extend_hop_iff {table : Table} {outerAlias outerColumn innerAlias innerColumn : String}
    (hne : outerAlias ≠ innerAlias) {session : Sql.Session D} {tables : Sql.Tables D}
    {environment extended : Sql.Environment D} :
    extended ∈ (JoinHop.join ⟨table.reference innerAlias, outerAlias, outerColumn, innerAlias,
        innerColumn⟩ .inner).extend session tables environment ↔
      ∃ row ∈ table.rows tables.stored, extended = environment.bind innerAlias row ∧
        Sql.Engine.equal (environment outerAlias outerColumn) (row innerColumn) = some true := by
  have hcondition : ∀ row, (Sql.Expr.equals (.column outerAlias outerColumn)
      (.column innerAlias innerColumn)).truth session (environment.bind innerAlias row) =
        Sql.Engine.equal (environment outerAlias outerColumn) (row innerColumn) := by
    intro row
    rw [truth_equals_column, environment.bind_of_ne row hne, environment.bind_self]
  rw [JoinHop.join, Sql.Join.mem_extend_inner_iff]
  simp only [Sql.holdAll_iff, List.mem_singleton, forall_eq]
  constructor
  · rintro ⟨row, hrow, rfl, hequal⟩
    exact ⟨row, hrow, rfl, (hcondition row).symm.trans hequal⟩
  · rintro ⟨row, hrow, rfl, hequal⟩
    exact ⟨row, hrow, rfl, (hcondition row).trans hequal⟩

/-- The joins of a path lead to the rows that the edge connects with a row left, also where the
column that the first of them compares is read from elsewhere. -/
theorem JoinPath.exists_extended_joinsFromKey_iff {schema : Schema} {outer inner : BoundVertex}
    {traversal : Traversal} {supply later : Sql.AliasSupply} {hops : List JoinHop}
    (h : JoinPath schema outer inner traversal supply hops later)
    (hfresh : (outer.aliasName :: hops.map JoinHop.innerAlias).Nodup) (session : Sql.Session D)
    (tables : Sql.Tables D) (environment : Sql.Environment D) {column : String}
    {left : Sql.Row D}
    (hleft : ∀ hop ∈ hops.head?, environment outer.aliasName column = left hop.outerColumn)
    (row : Sql.Row D) :
    (∃ extended ∈ Sql.extendAll session tables
          (Recursion.joinsFromKey (.column outer.aliasName column) hops) environment,
        extended inner.aliasName = row) ↔
      ∃ table crossed, schema.tableOf inner.typeName = .ok table ∧
        row ∈ table.rows tables.stored ∧
        schema.hopsBetween outer.typeName traversal inner.typeName = .ok crossed ∧
        schema.Connects tables.stored crossed left row := by
  have hjoin : ∀ (first : JoinHop) (rest : List JoinHop),
      Recursion.joinsFromKey (.column outer.aliasName column) (first :: rest) =
        JoinHop.join ⟨first.table, outer.aliasName, column, first.innerAlias, first.innerColumn⟩
          .inner :: rest.map (JoinHop.join · .inner) := fun _ _ => rfl
  cases h with
  | direct hhops htable =>
      have hne : outer.aliasName ≠ inner.aliasName := by simpa using hfresh
      have hleft := hleft _ rfl
      simp only [hhops, htable, hjoin, List.map_nil, Sql.extendAll, List.mem_flatMap,
        List.mem_singleton, mem_extend_hop_iff hne, hleft]
      constructor
      · rintro ⟨_, ⟨_, ⟨found, hfound, rfl, hequal⟩, rfl⟩, rfl⟩
        rw [environment.bind_self]
        exact ⟨_, _, rfl, hfound, rfl, hequal⟩
      · rintro ⟨_, _, ⟨⟩, hrow, ⟨⟩, hequal⟩
        exact ⟨_, ⟨_, ⟨row, hrow, rfl, hequal⟩, rfl⟩, environment.bind_self _ _⟩
  | junction hhops hjunction htable =>
      simp only [List.map_cons, List.map_nil, List.nodup_cons, List.mem_cons, List.not_mem_nil,
        or_false, not_or] at hfresh
      obtain ⟨⟨houter, -⟩, hinner, -⟩ := hfresh
      have hleft := hleft _ rfl
      simp only [hhops, htable, hjoin, List.map_cons, List.map_nil, Sql.extendAll,
        List.mem_flatMap, List.mem_singleton, mem_extend_hop_iff houter,
        mem_extend_hop_iff hinner, hleft]
      constructor
      · rintro ⟨_, ⟨_, ⟨passed, hpassed, rfl, hentry⟩, _, ⟨found, hfound, rfl, hexit⟩, rfl⟩, rfl⟩
        rw [Sql.Environment.bind_self] at hexit ⊢
        exact ⟨_, _, rfl, hfound, rfl, _, hjunction, passed, hpassed, hentry, hexit⟩
      · rintro ⟨_, _, ⟨⟩, hrow, ⟨⟩, _, hfound, passed, hpassed, hentry, hexit⟩
        obtain rfl := Option.some.inj (hjunction.symm.trans hfound)
        refine ⟨_, ⟨_, ⟨passed, hpassed, rfl, hentry⟩, _, ⟨row, hrow, rfl, ?_⟩, rfl⟩,
          Sql.Environment.bind_self _ _ _⟩
        rw [Sql.Environment.bind_self]
        exact hexit

/-- The joins of a path lead to the rows that the edge connects with the row left. -/
theorem JoinPath.exists_extended_iff {schema : Schema} {outer inner : BoundVertex}
    {traversal : Traversal} {supply later : Sql.AliasSupply} {hops : List JoinHop}
    (h : JoinPath schema outer inner traversal supply hops later)
    (hfresh : (outer.aliasName :: hops.map JoinHop.innerAlias).Nodup) (session : Sql.Session D)
    (tables : Sql.Tables D) (environment : Sql.Environment D) (row : Sql.Row D) :
    (∃ extended ∈ Sql.extendAll session tables (hops.map (JoinHop.join · .inner)) environment,
        extended inner.aliasName = row) ↔
      ∃ table crossed, schema.tableOf inner.typeName = .ok table ∧
        row ∈ table.rows tables.stored ∧
        schema.hopsBetween outer.typeName traversal inner.typeName = .ok crossed ∧
        schema.Connects tables.stored crossed (environment outer.aliasName) row := by
  obtain ⟨column, hjoins, hleft⟩ : ∃ column, hops.map (JoinHop.join · .inner) =
      Recursion.joinsFromKey (.column outer.aliasName column) hops ∧
        ∀ hop ∈ hops.head?,
          environment outer.aliasName column = environment outer.aliasName hop.outerColumn := by
    cases h with
    | direct | junction => exact ⟨_, rfl, by simp⟩
  rw [hjoins]
  exact h.exists_extended_joinsFromKey_iff hfresh session tables environment hleft row

/-- The row of a vertex belongs to its table, and the edge to the vertex connects the row of the
vertex above with it. -/
def Schema.Crosses (schema : Schema) (stored : Sql.Stored D) (above below : Node)
    (outer inner : Sql.Row D) : Prop :=
  ∃ traversal table hops, below.relation.edge = some traversal ∧
    schema.tableOf below.typeName = .ok table ∧ inner ∈ table.rows stored ∧
    schema.hopsBetween above.typeName traversal below.typeName = .ok hops ∧
    schema.Connects stored hops outer inner

namespace Binding

variable {target : Target} {binding : Binding} {supply later : Sql.AliasSupply}

theorem Made.map_aliasName_joins (h : binding.Made target supply later) (scopeRoot : Node) :
    (binding.joins scopeRoot).map (fun join => join.table.aliasName) = binding.aliases := by
  rw [← (h.storedAs_joins scopeRoot).map_aliasName, List.map_map]
  rfl

/-- The joins of a binding lead to the rows to which the edge crosses. -/
theorem Made.exists_extended_iff (h : binding.Made target supply later) {scopeRoot : Node}
    (hinner : binding.child.node.joinKind scopeRoot = .inner)
    (hfresh : binding.parent.aliasName ∉ binding.aliases) (session : Sql.Session D)
    (tables : Sql.Tables D) (environment : Sql.Environment D) (row : Sql.Row D) :
    (∃ extended ∈ Sql.extendAll session tables (binding.joins scopeRoot) environment,
        extended binding.child.aliasName = row) ↔
      target.schema.Crosses tables.stored binding.parent.node binding.child.node
        (environment binding.parent.aliasName) row := by
  have hnodup : (binding.parent.aliasName :: binding.aliases).Nodup :=
    List.nodup_cons.2 ⟨hfresh, h.takes.nodup⟩
  obtain ⟨traversal, table, hedge, htable, -, hpath⟩ := h
  have hjoins : binding.joins scopeRoot = binding.hops.map (JoinHop.join · .inner) := by
    rw [joins, hinner]
  rw [hjoins]
  refine (hpath.exists_extended_iff hnodup session tables environment row).trans ?_
  constructor
  · rintro ⟨table, hops, htable, hrow, hhops, hconnects⟩
    exact ⟨traversal, table, hops, hedge, htable, hrow, hhops, hconnects⟩
  · rintro ⟨traversal', table, hops, hedge', htable, hrow, hhops, hconnects⟩
    obtain rfl := Option.some.inj (hedge.symm.trans hedge')
    exact ⟨table, hops, htable, hrow, hhops, hconnects⟩

end Binding

namespace Bindings

variable {target : Target} {known : List Member} {bindings : List Binding}
  {supply later : Sql.AliasSupply}

theorem map_aliasName_joins (h : Bindings target known bindings supply later) (scopeRoot : Node) :
    (bindings.flatMap (Binding.joins scopeRoot)).map (fun join => join.table.aliasName) =
      bindings.flatMap Binding.aliases := by
  rw [← (h.storedAs_joins scopeRoot).map_aliasName, List.map_map]
  rfl

/-- The joins of bindings lead from the rows of the vertices that are known to exactly those rows
of the other vertices to which the edges cross. -/
theorem exists_extended_iff (h : Bindings target known bindings supply later) {scopeRoot : Node}
    (hinner : ∀ b ∈ bindings, b.child.node.joinKind scopeRoot = .inner)
    (hfresh : (known.map Member.aliasName).Disjoint (bindings.flatMap Binding.aliases))
    (session : Sql.Session D) (tables : Sql.Tables D) (environment rows : Sql.Environment D)
    (hknown : ∀ m ∈ known, environment m.aliasName = rows m.aliasName) :
    (∃ extended ∈ Sql.extendAll session tables (bindings.flatMap (Binding.joins scopeRoot))
          environment,
        ∀ m ∈ bindings.map Binding.child, extended m.aliasName = rows m.aliasName) ↔
      ∀ b ∈ bindings, target.schema.Crosses tables.stored b.parent.node b.child.node
        (rows b.parent.aliasName) (rows b.child.aliasName) := by
  have hnodup := h.takes.nodup
  induction h generalizing environment with
  | nil => simp [Sql.extendAll]
  | @cons known binding rest supply later last hparent hmade hrest ih =>
      rw [List.flatMap_cons, List.nodup_append'] at hnodup
      obtain ⟨-, hnodup, hdisjoint⟩ := hnodup
      rw [List.flatMap_cons, List.disjoint_append_right] at hfresh
      obtain ⟨hfirst, hothers⟩ := hfresh
      have hchild := hmade.child_mem_aliases
      have hparentFresh : binding.parent.aliasName ∉ binding.aliases :=
        hfirst (List.mem_map_of_mem hparent)
      have hstep := hmade.exists_extended_iff (hinner binding List.mem_cons_self) hparentFresh
        session tables environment (rows binding.child.aliasName)
      rw [hknown _ hparent] at hstep
      have hrestFresh : ((binding.child :: known).map Member.aliasName).Disjoint
          (rest.flatMap Binding.aliases) := by
        rw [List.map_cons, List.disjoint_cons_left]
        exact ⟨hdisjoint hchild, hothers⟩
      -- What stands under the known aliases is the same after the first joins.
      have hkept : ∀ between ∈ Sql.extendAll session tables (binding.joins scopeRoot) environment,
          between binding.child.aliasName = rows binding.child.aliasName →
            ∀ m ∈ binding.child :: known, between m.aliasName = rows m.aliasName := by
        intro between hbetween hrow m hm
        rcases List.mem_cons.1 hm with rfl | hm
        · exact hrow
        · rw [← hknown m hm]
          apply Sql.extendAll_of_not_mem hbetween
          rw [hmade.map_aliasName_joins]
          exact hfirst (List.mem_map_of_mem hm)
      have hsame : ∀ between, ∀ extended ∈ Sql.extendAll session tables
          (rest.flatMap (Binding.joins scopeRoot)) between,
          extended binding.child.aliasName = between binding.child.aliasName := by
        intro between extended hextended
        apply Sql.extendAll_of_not_mem hextended
        rw [hrest.map_aliasName_joins]
        exact hdisjoint hchild
      have hih := fun between hbetween hrow => ih (fun b hb => hinner b (List.mem_cons_of_mem _ hb))
        hrestFresh between (hkept between hbetween hrow) hnodup
      rw [List.flatMap_cons, Sql.extendAll_append]
      simp only [List.mem_flatMap, List.map_cons, List.forall_mem_cons]
      rw [← hstep]
      constructor
      · rintro ⟨extended, ⟨between, hbetween, hextended⟩, hrow, hrows⟩
        rw [hsame between extended hextended] at hrow
        exact ⟨⟨between, hbetween, hrow⟩,
          (hih between hbetween hrow).1 ⟨extended, hextended, hrows⟩⟩
      · rintro ⟨⟨between, hbetween, hrow⟩, hcrosses⟩
        obtain ⟨extended, hextended, hrows⟩ := (hih between hbetween hrow).2 hcrosses
        exact ⟨extended, ⟨between, hbetween, hextended⟩,
          (hsame between extended hextended).trans hrow, hrows⟩

end Bindings

omit [DecidableEq D] in
theorem one_compared (session : Sql.Session D) (environment : Sql.Environment D) (e : Sql.Expr) :
    (e.compared session environment).one = e.value session environment := by
  cases e <;> simp [Sql.Expr.compared, Sql.Expr.value]

/-- The comparison of a column has the truth that its operator gives. -/
theorem truth_comparison {operator : FilterOperator} {table name : String} {values : List Sql.Expr}
    {comparison : Sql.Expr}
    (h : operator.comparison? (.column table name) values = some comparison)
    (session : Sql.Session D) (environment : Sql.Environment D) :
    comparison.truth session environment =
      operator.test session.toEngine (environment table name)
        (values.map (Sql.Expr.compared session environment)) := by
  have hcolumn : (Sql.Expr.column table name).compared session environment =
      ⟨environment table name, [environment table name]⟩ := by
    simp [Sql.Expr.compared, Sql.Expr.value]
  have hconcat : ∀ parts : List Sql.Expr, (Sql.Expr.concat parts).compared session environment =
      ⟨(Sql.Expr.concat parts).value session environment,
        [(Sql.Expr.concat parts).value session environment]⟩ := by
    intro parts
    simp [Sql.Expr.compared]
  match values with
  | [] => cases operator <;> simp [FilterOperator.comparison?, FilterOperator.shape] at h
  | [value] =>
      cases operator <;>
        simp only [FilterOperator.comparison?, FilterOperator.shape, Option.some.injEq,
          reduceCtorEq] at h <;>
        subst h <;>
        simp [Sql.Expr.truth_apply, Sql.Engine.test, FilterOperator.test, hcolumn, hconcat,
          Sql.Engine.pattern, one_compared, Sql.Expr.value, Sql.Expr.values, Sql.Expr.string]
  | [lower, upper] =>
      cases operator <;>
        simp only [FilterOperator.comparison?, FilterOperator.shape, Option.some.injEq,
          reduceCtorEq] at h
      subst h
      simp [Sql.Expr.truth_apply, Sql.Engine.test, FilterOperator.test, hcolumn]
  | _ :: _ :: _ :: _ =>
      cases operator <;> simp [FilterOperator.comparison?, FilterOperator.shape] at h

end TraversalSql
