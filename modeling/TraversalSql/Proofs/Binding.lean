import TraversalSql.Emission.Members
import TraversalSql.Proofs.Scopes
import TraversalSql.Proofs.Supply

/-!
How the vertices of a group are bound.  Each vertex below the top one is bound once, with an alias
of its own and the joins that lead to it from a vertex that was bound before.
-/

namespace TraversalSql

open Outcome

/-- The joins from one vertex to another along an edge, with the supply before and after: one join
to the table of the vertex reached, or two by way of a junction, which takes a new alias. -/
inductive JoinPath (schema : Schema) (outer inner : BoundVertex) (traversal : Traversal) :
    Sql.AliasSupply → List JoinHop → Sql.AliasSupply → Prop
  | direct {supply : Sql.AliasSupply} {table : Table} {outerColumn innerColumn : String}
      (hhops : schema.hopsBetween outer.typeName traversal inner.typeName =
        .ok [⟨outerColumn, .vertex, innerColumn⟩])
      (htable : schema.tableOf inner.typeName = .ok table) :
      JoinPath schema outer inner traversal supply
        [⟨table.reference inner.aliasName, outer.aliasName, outerColumn, inner.aliasName,
          innerColumn⟩] supply
  | junction {supply : Sql.AliasSupply} {table junction : Table}
      {name outerColumn entryColumn exitColumn innerColumn : String}
      (hhops : schema.hopsBetween outer.typeName traversal inner.typeName =
        .ok [⟨outerColumn, .junction name, entryColumn⟩, ⟨exitColumn, .vertex, innerColumn⟩])
      (hjunction : schema.table? name = some junction)
      (htable : schema.tableOf inner.typeName = .ok table) :
      JoinPath schema outer inner traversal supply
        [⟨junction.reference (supply.nextAlias junction.name).1, outer.aliasName, outerColumn,
            (supply.nextAlias junction.name).1, entryColumn⟩,
          ⟨table.reference inner.aliasName, (supply.nextAlias junction.name).1, exitColumn,
            inner.aliasName, innerColumn⟩]
        (supply.nextAlias junction.name).2

/-- An edge is crossed by one hop to the vertex reached, or by two with a junction between. -/
theorem Edge.hops_cases {edge : Edge} {direction : Direction} {hops : List Hop}
    (h : edge.hops direction = .ok hops) :
    (∃ outer inner, hops = [⟨outer, .vertex, inner⟩]) ∨
      ∃ outer name entry exit inner,
        hops = [⟨outer, .junction name, entry⟩, ⟨exit, .vertex, inner⟩] := by
  cases edge with
  | direct link =>
      cases direction <;> exact .inl ⟨_, _, (Except.ok.inj h).symm⟩
  | junction first second =>
      obtain ⟨source, sink, tableName⟩ := first
      cases tableName with
      | none => exact absurd h (by simp [Edge.hops])
      | some table =>
          cases direction <;> exact .inr ⟨_, _, _, _, _, (Except.ok.inj h).symm⟩

namespace Schema

theorem hopsBetween_cases {schema : Schema} {outer inner : String} {traversal : Traversal}
    {hops : List Hop} (h : schema.hopsBetween outer traversal inner = .ok hops) :
    (∃ o i, hops = [⟨o, .vertex, i⟩]) ∨
      ∃ o name entry exit i, hops = [⟨o, .junction name, entry⟩, ⟨exit, .vertex, i⟩] := by
  unfold hopsBetween at h
  obtain ⟨edge, -, hhops⟩ := bind_eq_ok_iff.1 h
  exact Edge.hops_cases hhops

end Schema

/-- The joins that a step of an emission finds. -/
theorem joinPath_eq_ok_iff {schema : Schema} {outer inner : BoundVertex} {traversal : Traversal}
    {hops : List JoinHop} {supply later : Sql.AliasSupply} :
    Emit.joinPath schema outer traversal inner supply = .ok (hops, later) ↔
      JoinPath schema outer inner traversal supply hops later := by
  constructor
  · intro h
    unfold Emit.joinPath Schema.joinPath at h
    cases hhops : schema.hopsBetween outer.typeName traversal inner.typeName with
    | error e => simp [hhops] at h
    | ok found =>
        rcases Schema.hopsBetween_cases hhops with ⟨o, i, rfl⟩ | ⟨o, name, entry, exit, i, rfl⟩
        · cases htable : schema.tableOf inner.typeName with
          | error e =>
              simp [hhops, Schema.joinHops, Schema.hopTable, Schema.reference, htable,
                Except.map] at h
          | ok table =>
              simp only [hhops, Schema.joinHops, Schema.hopTable, Schema.reference, htable,
                Except.map, Except.ok.injEq, Prod.mk.injEq] at h
              obtain ⟨rfl, rfl⟩ := h
              exact .direct hhops htable
        · cases hjunction : schema.table? name with
          | none =>
              simp [hhops, Schema.joinHops, Schema.hopTable, hjunction] at h
          | some junction =>
              cases htable : schema.tableOf inner.typeName with
              | error e =>
                  simp [hhops, Schema.joinHops, Schema.hopTable, Schema.reference, htable,
                    hjunction, Except.map] at h
              | ok table =>
                  simp only [hhops, Schema.joinHops, Schema.hopTable, Schema.reference, htable,
                    hjunction, Except.map, Except.ok.injEq, Prod.mk.injEq] at h
                  obtain ⟨rfl, rfl⟩ := h
                  exact .junction hhops hjunction htable
  · intro h
    cases h with
    | direct hhops htable =>
        simp [Emit.joinPath, Schema.joinPath, hhops, Schema.joinHops, Schema.hopTable,
          Schema.reference, htable, Except.map]
    | junction hhops hjunction htable =>
        simp [Emit.joinPath, Schema.joinPath, hhops, Schema.joinHops, Schema.hopTable, hjunction,
          Schema.reference, htable, Except.map]

namespace Sql

def TableRef.storedAlias? : TableRef → Option String
  | .table _ _ aliasName => some aliasName
  | .cte _ _ => none

/-- Tables are stored ones under the given aliases. -/
def StoredAs (tables : List TableRef) (aliases : List String) : Prop :=
  tables.map TableRef.storedAlias? = aliases.map some

namespace StoredAs

variable {tables : List TableRef} {aliases : List String}

theorem append {others : List TableRef} {names : List String} (h : StoredAs tables aliases)
    (hothers : StoredAs others names) : StoredAs (tables ++ others) (aliases ++ names) := by
  unfold StoredAs at h hothers ⊢
  rw [List.map_append, List.map_append, h, hothers]

theorem filterMap_storedAlias? (h : StoredAs tables aliases) :
    tables.filterMap TableRef.storedAlias? = aliases := by
  have := congrArg List.reduceOption h
  simpa [List.reduceOption, List.filterMap_map] using this

theorem map_aliasName (h : StoredAs tables aliases) :
    tables.map TableRef.aliasName = aliases := by
  have hsame : ∀ table : TableRef, ∀ aliasName ∈ table.storedAlias?,
      table.aliasName = aliasName := by
    rintro (_ | _) aliasName ⟨⟩
    rfl
  induction tables generalizing aliases with
  | nil => cases aliases <;> simp_all [StoredAs]
  | cons table tables ih =>
      cases aliases with
      | nil => exact absurd h (by simp [StoredAs])
      | cons aliasName aliases =>
          obtain ⟨hfirst, hrest⟩ := List.cons.inj h
          rw [List.map_cons, hsame table aliasName hfirst, ih hrest]

end StoredAs

end Sql

/-- A vertex that is bound below another one, with the joins that lead to it. -/
structure Binding where
  parent : Member
  child : Member
  hops : List JoinHop
deriving Repr

namespace Binding

/-- The joins of a binding in a scope. -/
def joins (scopeRoot : Node) (binding : Binding) : List Sql.Join :=
  binding.hops.map fun hop => hop.join (binding.child.node.joinKind scopeRoot)

/-- The aliases that a binding takes: of the junction, if there is one, and of the vertex. -/
def aliases (binding : Binding) : List String := binding.hops.map JoinHop.innerAlias

/-- A binding that was made between two states of the supply. -/
def Made (target : Target) (binding : Binding) (supply later : Sql.AliasSupply) : Prop :=
  ∃ traversal table, binding.child.node.relation.edge = some traversal ∧
    target.schema.tableOf binding.child.node.typeName = .ok table ∧
    binding.child.aliasName = (supply.nextAlias table.name).1 ∧
    JoinPath target.schema binding.parent.vertex binding.child.vertex traversal
      (supply.nextAlias table.name).2 binding.hops later

end Binding

/-- Bindings that were made one after the other, each below a vertex that is known by then. -/
inductive Bindings (target : Target) :
    List Member → List Binding → Sql.AliasSupply → Sql.AliasSupply → Prop
  | nil (known : List Member) (supply : Sql.AliasSupply) : Bindings target known [] supply supply
  | cons {known : List Member} {binding : Binding} {rest : List Binding}
      {supply later last : Sql.AliasSupply} (hparent : binding.parent ∈ known)
      (hmade : binding.Made target supply later)
      (hrest : Bindings target (binding.child :: known) rest later last) :
      Bindings target known (binding :: rest) supply last

theorem exists_binding_of_bindChild {target : Target} {scopeRoot child : Node} {parent : Member}
    {bound : Member × List Sql.Join} {supply later : Sql.AliasSupply}
    (h : bindChild target scopeRoot parent child supply = .ok (bound, later)) :
    ∃ binding : Binding, binding.Made target supply later ∧ binding.parent = parent ∧
      binding.child.node = child ∧ bound = (binding.child, binding.joins scopeRoot) := by
  unfold bindChild at h
  cases hedge : child.relation.edge with
  | none => simp [hedge, Emit.throw_eq_ok_iff] at h
  | some traversal =>
      simp only [hedge, Emit.bind_eq_ok_iff, Emit.lift_eq_ok_iff, Emit.ofSchema_eq_ok_iff,
        Emit.takeAlias_eq_ok_iff, Emit.pure_eq_ok_iff, joinPath_eq_ok_iff] at h
      obtain ⟨table, _, ⟨htable, rfl⟩, aliasName, _, ⟨rfl, rfl⟩, hops, _, hpath, rfl, rfl⟩ := h
      exact ⟨⟨parent, ⟨child, _⟩, hops⟩, ⟨traversal, table, hedge, htable, rfl, hpath⟩, rfl, rfl,
        rfl⟩

/-- The vertices of a binding list after some that are known. -/
theorem Bindings.weaken {target : Target} {known more : List Member} {bindings : List Binding}
    {supply later : Sql.AliasSupply} (h : Bindings target known bindings supply later)
    (hmore : known ⊆ more) : Bindings target more bindings supply later := by
  induction h generalizing more with
  | nil known supply => exact .nil _ _
  | cons hparent hmade hrest ih =>
      exact .cons (hmore hparent) hmade (ih (List.cons_subset_cons _ hmore))

/-- Bindings may go on below all vertices that are bound by then. -/
theorem Bindings.append {target : Target} {known more : List Member} {first second : List Binding}
    {supply later last : Sql.AliasSupply} (h : Bindings target known first supply later)
    (hsecond : Bindings target more second later last)
    (hmore : more ⊆ first.map Binding.child ++ known) :
    Bindings target known (first ++ second) supply last := by
  induction h with
  | nil known supply => exact hsecond.weaken hmore
  | @cons known binding rest _ _ _ hparent hmade hrest ih =>
      apply Bindings.cons hparent hmade
      apply ih hsecond
      intro member hmember
      have := hmore hmember
      simp only [List.map_cons, List.cons_append, List.mem_cons, List.mem_append] at this ⊢
      tauto

/-- What binding vertices below a member comes to. -/
theorem exists_bindings_of_bindChildren {target : Target} {scopeRoot : Node} {parent : Member}
    {children : List Group} {joined : List (Member × List Sql.Join)}
    {supply later : Sql.AliasSupply}
    (h : bindChildren target scopeRoot parent children supply = .ok (joined, later)) :
    ∃ bindings : List Binding, Bindings target [parent] bindings supply later ∧
      joined = bindings.map (fun b => (b.child, b.joins scopeRoot)) ∧
      bindings.map (fun b => b.child.node) = children.map Group.node ∧
      ∀ b ∈ bindings, b.parent = parent := by
  induction children generalizing joined supply with
  | nil =>
      simp only [bindChildren, Emit.pure_eq_ok_iff] at h
      obtain ⟨rfl, rfl⟩ := h
      exact ⟨[], .nil _ _, rfl, rfl, by simp⟩
  | cons child children ih =>
      simp only [bindChildren, Emit.bind_eq_ok_iff, Emit.pure_eq_ok_iff] at h
      obtain ⟨first, between, hfirst, rest, _, hrest, rfl, rfl⟩ := h
      obtain ⟨binding, hmade, rfl, hnode, rfl⟩ := exists_binding_of_bindChild hfirst
      obtain ⟨bindings, hbindings, rfl, hnodes, hparents⟩ := ih hrest
      refine ⟨binding :: bindings, ?_, rfl, by simp [hnode, hnodes], ?_⟩
      · exact .cons List.mem_cons_self hmade (hbindings.weaken (by simp))
      · simpa using hparents

/-- Members that bindings make out of some that are there before. -/
structure Members.MadeBy (members : Members) (target : Target) (scopeRoot : Node)
    (tops : List Member) (bindings : List Binding) (supply later : Sql.AliasSupply) : Prop where
  made : Bindings target tops bindings supply later
  joins : members.joins = bindings.flatMap (Binding.joins scopeRoot)
  bound : members.bound.Perm (tops ++ bindings.map Binding.child)

theorem checkNesting_eq_ok_iff {inFold : Bool} {node : Node} :
    checkNesting inFold node = .ok () ↔
      (inFold = true → node.recursions = [] ∧ node.folds = []) := by
  cases inFold with
  | false => simp [checkNesting]
  | true =>
      simp only [checkNesting, Bool.true_and, forall_const]
      rw [← List.isEmpty_iff, ← List.isEmpty_iff]
      cases node.recursions.isEmpty <;> cases node.folds.isEmpty <;> simp

mutual

/-- What binding a group comes to. -/
theorem exists_bindings_of_bindGroup {target : Target} {scopeRoot : Node} {inFold : Bool}
    (group : Group) {aliasName : String} {members : Members} {supply later : Sql.AliasSupply}
    (h : bindGroup target scopeRoot inFold group aliasName supply = .ok (members, later)) :
    ∃ bindings : List Binding,
      members.MadeBy target scopeRoot [⟨group.node, aliasName⟩] bindings supply later ∧
      members.bound.map Member.node = group.nodes ∧
      (∀ b ∈ bindings, group.Hangs b.parent.node b.child.node) ∧
      ∀ node ∈ group.nodes, checkNesting inFold node = .ok () := by
  match group with
  | .mk node children =>
      simp only [bindGroup, Emit.bind_eq_ok_iff, Emit.lift_eq_ok_iff, Emit.pure_eq_ok_iff] at h
      obtain ⟨_, _, ⟨hnesting, rfl⟩, joined, between, hjoined, below, _, hbelow, rfl, rfl⟩ := h
      obtain ⟨first, hfirst, rfl, hnodes, hparents⟩ := exists_bindings_of_bindChildren hjoined
      -- The children are bound before anything below them, in whose bindings they are known.
      have htops : (first.map Binding.child).map Member.node = children.map Group.node := by
        rw [List.map_map]
        exact hnodes
      have haliases : (first.map fun b => (b.child, b.joins scopeRoot)).map
          (fun j => j.1.aliasName) = (first.map Binding.child).map Member.aliasName := by
        simp [Function.comp_def]
      rw [haliases] at hbelow
      obtain ⟨rest, hrest, hbound, hhangs, hunnested⟩ :=
        exists_bindings_of_bindGroups children _ htops hbelow
      refine ⟨first ++ rest, ⟨?_, ?_, ?_⟩, ?_, ?_, ?_⟩
      · exact hfirst.append hrest.made (List.subset_append_left _ _)
      · simp [hrest.joins, List.flatMap_map]
      · simpa [Group.node] using hrest.bound
      · simp [Group.nodes, hbound]
      · intro b hb
        rcases List.mem_append.1 hb with hb | hb
        · rw [hparents b hb]
          have hmem : b.child.node ∈ children.map Group.node := by
            rw [← hnodes]
            exact List.mem_map_of_mem hb
          obtain ⟨child, hchild, hnode⟩ := List.mem_map.1 hmem
          rw [← hnode]
          exact .here hchild
        · obtain ⟨child, hchild, hhang⟩ := hhangs b hb
          exact .inside hchild hhang
      · intro other hother
        rw [Group.nodes, List.mem_cons] at hother
        rcases hother with rfl | hother
        · exact hnesting
        · exact hunnested other hother

/-- What binding groups one after the other comes to. -/
theorem exists_bindings_of_bindGroups {target : Target} {scopeRoot : Node} {inFold : Bool}
    (groups : List Group) (tops : List Member)
    (htops : tops.map Member.node = groups.map Group.node) {members : Members}
    {supply later : Sql.AliasSupply}
    (h : bindGroups target scopeRoot inFold groups (tops.map Member.aliasName) supply =
      .ok (members, later)) :
    ∃ bindings : List Binding,
      members.MadeBy target scopeRoot tops bindings supply later ∧
      members.bound.map Member.node = Group.nodesOfAll groups ∧
      (∀ b ∈ bindings, ∃ group ∈ groups, group.Hangs b.parent.node b.child.node) ∧
      ∀ node ∈ Group.nodesOfAll groups, checkNesting inFold node = .ok () := by
  match groups, tops with
  | [], [] =>
      simp only [bindGroups, Emit.pure_eq_ok_iff] at h
      obtain ⟨rfl, rfl⟩ := h
      exact ⟨[], ⟨.nil _ _, rfl, .nil⟩, rfl, by simp, by simp [Group.nodesOfAll]⟩
  | [], _ :: _ => simp at htops
  | _ :: _, [] => simp at htops
  | group :: groups, top :: tops =>
      obtain ⟨node, aliasName⟩ := top
      simp only [List.map_cons, List.cons.injEq] at htops
      obtain ⟨rfl, htops⟩ := htops
      simp only [List.map_cons, bindGroups, Emit.bind_eq_ok_iff, Emit.pure_eq_ok_iff] at h
      obtain ⟨firstMembers, between, hfirst, restMembers, _, hrest, rfl, rfl⟩ := h
      obtain ⟨first, hfirst, hbound, hhangs, hunnested⟩ := exists_bindings_of_bindGroup group hfirst
      obtain ⟨rest, hrest, hbound', hhangs', hunnested'⟩ :=
        exists_bindings_of_bindGroups groups tops htops hrest
      refine ⟨first ++ rest, ⟨?_, ?_, ?_⟩, ?_, ?_, ?_⟩
      · apply (hfirst.made.weaken (by simp)).append hrest.made
        intro member hmember
        simp [hmember]
      · simp [hfirst.joins, hrest.joins]
      · refine (hfirst.bound.append hrest.bound).trans ?_
        simp only [List.map_append, List.cons_append, List.nil_append]
        apply List.Perm.cons
        exact List.perm_append_comm_assoc _ _ _
      · simp [Group.nodesOfAll, hbound, hbound']
      · intro b hb
        rcases List.mem_append.1 hb with hb | hb
        · exact ⟨group, List.mem_cons_self, hhangs b hb⟩
        · obtain ⟨other, hother, hhang⟩ := hhangs' b hb
          exact ⟨other, List.mem_cons_of_mem _ hother, hhang⟩
      · intro node hnode
        rw [Group.nodesOfAll, List.mem_append] at hnode
        exact hnode.elim (hunnested node) (hunnested' node)

end

open Sql.AliasSupply

/-- A path ends at the alias of the vertex reached, and takes at most one other alias. -/
theorem JoinPath.takes {schema : Schema} {outer inner : BoundVertex} {traversal : Traversal}
    {hops : List JoinHop} {supply later : Sql.AliasSupply}
    (h : JoinPath schema outer inner traversal supply hops later) :
    ∃ passed : List String, hops.map JoinHop.innerAlias = passed ++ [inner.aliasName] ∧
      supply.Draws passed later := by
  cases h with
  | direct => exact ⟨[], rfl, .nil _⟩
  | junction => exact ⟨[_], rfl, .next _ _⟩

/-- The joins of a path are joins with stored tables. -/
theorem JoinPath.storedAs {schema : Schema} {outer inner : BoundVertex} {traversal : Traversal}
    {hops : List JoinHop} {supply later : Sql.AliasSupply}
    (h : JoinPath schema outer inner traversal supply hops later) :
    Sql.StoredAs (hops.map JoinHop.table) (hops.map JoinHop.innerAlias) := by
  cases h <;> rfl

namespace Binding

variable {target : Target} {binding : Binding} {supply later : Sql.AliasSupply}

theorem Made.child_mem_aliases (h : binding.Made target supply later) :
    binding.child.aliasName ∈ binding.aliases := by
  obtain ⟨traversal, table, -, -, -, hpath⟩ := h
  obtain ⟨passed, haliases, -⟩ := hpath.takes
  rw [aliases, haliases]
  simp [Member.vertex]

theorem Made.takes (h : binding.Made target supply later) :
    supply.Draws binding.aliases later := by
  obtain ⟨traversal, table, -, -, hchild, hpath⟩ := h
  obtain ⟨passed, haliases, htakes⟩ := hpath.takes
  rw [aliases, haliases, Member.vertex, hchild]
  exact ((Draws.next _ _).append htakes).perm List.perm_append_comm

theorem Made.storedAs_joins (h : binding.Made target supply later) (scopeRoot : Node) :
    Sql.StoredAs ((binding.joins scopeRoot).map Sql.Join.table) binding.aliases := by
  obtain ⟨traversal, table, -, -, -, hpath⟩ := h
  rw [joins, List.map_map]
  exact hpath.storedAs

end Binding

namespace Bindings

variable {target : Target} {known : List Member} {bindings : List Binding}
  {supply later : Sql.AliasSupply}

/-- All aliases that bindings take differ. -/
theorem takes (h : Bindings target known bindings supply later) :
    supply.Draws (bindings.flatMap Binding.aliases) later := by
  induction h with
  | nil => exact .nil _
  | cons _ hmade _ ih => exact hmade.takes.append ih

theorem storedAs_joins (h : Bindings target known bindings supply later) (scopeRoot : Node) :
    Sql.StoredAs ((bindings.flatMap (Binding.joins scopeRoot)).map Sql.Join.table)
      (bindings.flatMap Binding.aliases) := by
  induction h with
  | nil => rfl
  | cons _ hmade _ ih =>
      rw [List.flatMap_cons, List.flatMap_cons, List.map_append]
      exact (hmade.storedAs_joins scopeRoot).append ih

theorem parent_mem (h : Bindings target known bindings supply later) :
    ∀ b ∈ bindings, b.parent ∈ known ++ bindings.map Binding.child := by
  induction h with
  | nil => simp
  | @cons known binding rest _ _ _ hparent _ _ ih =>
      intro b hb
      rcases List.mem_cons.1 hb with rfl | hb
      · exact List.mem_append_left _ hparent
      · have := ih b hb
        simp only [List.map_cons, List.mem_append, List.mem_cons] at this ⊢
        tauto

theorem aliases_children_sublist (h : Bindings target known bindings supply later) :
    ((bindings.map Binding.child).map Member.aliasName).Sublist
      (bindings.flatMap Binding.aliases) := by
  induction h with
  | nil => exact .slnil
  | cons _ hmade _ ih =>
      rw [List.map_cons, List.map_cons, List.flatMap_cons, ← List.singleton_append]
      exact (List.singleton_sublist.2 hmade.child_mem_aliases).append ih

end Bindings

/-- Where the aliases of the top vertices were taken before, no alias of a group is taken twice. -/
theorem Bindings.nodup_all_aliases {target : Target} {known : List Member}
    {bindings : List Binding} {supply later : Sql.AliasSupply}
    (h : Bindings target known bindings supply later) (hknown : (known.map Member.aliasName).Nodup)
    (hearlier : ∀ m ∈ known, ∃ earlier, Issued earlier supply m.aliasName) :
    (known.map Member.aliasName ++ bindings.flatMap Binding.aliases).Nodup := by
  rw [List.nodup_append']
  refine ⟨hknown, h.takes.nodup, ?_⟩
  intro aliasName hfirst hsecond
  obtain ⟨m, hm, rfl⟩ := List.mem_map.1 hfirst
  obtain ⟨earlier, hissued⟩ := hearlier m hm
  exact hissued.ne (h.takes.issued _ hsecond) (.refl _) rfl

theorem Members.MadeBy.nodup_aliases {members : Members} {target : Target} {scopeRoot : Node}
    {tops : List Member} {bindings : List Binding} {supply later : Sql.AliasSupply}
    (h : members.MadeBy target scopeRoot tops bindings supply later)
    (htops : (tops.map Member.aliasName).Nodup)
    (hearlier : ∀ m ∈ tops, ∃ earlier, Issued earlier supply m.aliasName) :
    (members.bound.map Member.aliasName).Nodup := by
  rw [(h.bound.map _).nodup_iff, List.map_append]
  exact ((List.Sublist.refl _).append h.made.aliases_children_sublist).nodup
    (h.made.nodup_all_aliases htops hearlier)

end TraversalSql
