import TraversalSql.Proofs.Completeness
import TraversalSql.Proofs.RecursionTypes
import TraversalSql.Proofs.Resolution

/-!
Errors that no query brings about.  Where SQL is emitted, some checks guard against trees that are
not put together well, and against operators and tags without a meaning.  Reading and assembly see
to it that none of these checks fails, but for the one that a query gives out something.
-/

namespace TraversalSql

open Outcome

/-- Whether an error tells of a tree, a tag or an operator that is not put together well. -/
def EmitError.isInternal : EmitError → Bool
  | .unsupportedOperator _ | .missingTagOperand _ | .invalidTree _ => true
  | _ => false

/-- A computation that does not fail for internal reasons. -/
def Safe {α : Type} (x : Except EmitError α) : Prop := ∀ e, x = .error e → ¬ e.isInternal

section Safe

variable {α β : Type}

theorem Safe.ok (a : α) : Safe (.ok a) := fun _ h => absurd h (by simp)

theorem Safe.error {e : EmitError} (h : e.isInternal = false) :
    Safe (.error e : Except EmitError α) := by
  intro other hother
  obtain rfl := Except.error.inj hother
  simp [h]

/-- A sequence is safe if its first step is, and the rest is with whatever this gives. -/
theorem Safe.bind {x : Except EmitError α} {f : α → Except EmitError β} (hx : Safe x)
    (hf : ∀ a, x = .ok a → Safe (f a)) : Safe (x >>= f) := by
  intro e h
  rcases bind_eq_error_iff.1 h with hfirst | ⟨a, ha, hrest⟩
  · exact hx e hfirst
  · exact hf a ha e hrest

theorem Safe.mapM {f : α → Except EmitError β} {as : List α} (h : ∀ a ∈ as, Safe (f a)) :
    Safe (as.mapM f) := by
  induction as with
  | nil => exact .ok []
  | cons a as ih =>
      obtain ⟨hfirst, hrest⟩ := List.forall_mem_cons.1 h
      rw [List.mapM_cons]
      exact hfirst.bind fun b _ => (ih hrest).bind fun bs _ => .ok (b :: bs)

theorem Safe.ofSchema (x : Except SchemaError α) : Safe (Emit.ofSchema x) := by
  cases x with
  | ok a => exact .ok a
  | error e => exact .error rfl

namespace Emit

variable {supply : Sql.AliasSupply}

theorem safe_bind {x : Emit α} {f : α → Emit β} (hx : Safe (x supply))
    (hf : ∀ a later, x supply = .ok (a, later) → Safe (f a later)) : Safe ((x >>= f) supply) :=
  hx.bind fun made hmade => hf made.1 made.2 hmade

/-- A check is safe together with what follows it. -/
theorem safe_lift_bind {x : Except EmitError α} {f : α → Emit β} (hx : Safe x)
    (hf : ∀ a, x = .ok a → Safe (f a supply)) : Safe (((liftM x : Emit α) >>= f) supply) := by
  refine safe_bind (hx.bind fun a _ => .ok (a, supply)) fun a later h => ?_
  obtain ⟨ha, rfl⟩ := lift_eq_ok_iff.1 h
  exact hf a ha

/-- A question to the schema is safe together with what follows it. -/
theorem safe_ofSchema_bind {x : Except SchemaError α} {f : α → Emit β}
    (hf : ∀ a, Safe (f a supply)) : Safe (((liftM (ofSchema x) : Emit α) >>= f) supply) :=
  safe_lift_bind (.ofSchema x) fun a _ => hf a

theorem safe_joinPath (schema : Schema) (outer : BoundVertex) (traversal : Traversal)
    (inner : BoundVertex) : Safe (joinPath schema outer traversal inner supply) := by
  unfold joinPath
  split
  · exact .ok _
  · exact .error rfl

end Emit

end Safe

section Members

variable {members : Members} {schema : Schema}

theorem Member.safe_column (member : Member) (schema : Schema) (field : String) :
    Safe (member.column schema field) :=
  (Safe.ofSchema _).bind fun _ _ => .ok _

theorem Members.safe_outputs (members : Members) (schema : Schema) :
    Safe (members.outputs schema) :=
  Safe.mapM fun source _ => (source.1.safe_column schema source.2.field).bind fun _ _ => .ok _

/-- A filter that has the operand of its tag fails for its number of operands only. -/
theorem Predicate.safe_condition {predicate : Predicate} {column : Operand} {tag : Option Operand}
    (htag : predicate.tag.isSome → tag.isSome) : Safe (predicate.condition column tag) := by
  obtain ⟨tagged, htagged⟩ : ∃ tagged, predicate.tagOperand tag = .ok tagged := by
    unfold Predicate.tagOperand
    cases hsome : predicate.tag with
    | none => exact ⟨none, rfl⟩
    | some ref =>
        obtain ⟨operand, rfl⟩ := Option.isSome_iff_exists.1 (htag (by simp [hsome]))
        exact ⟨some operand, rfl⟩
  by_cases hlength :
      (predicate.values tagged).length = predicate.operator.cardinality.operands
  · have hsome :
        (predicate.operator.comparison? column.column (predicate.values tagged)).isSome :=
      FilterOperator.comparison?_isSome_iff.2 hlength
    obtain ⟨comparison, hcomparison⟩ := Option.isSome_iff_exists.1 hsome
    rw [condition_eq_ok_iff.2 ⟨tagged, comparison, htagged, hcomparison, rfl⟩]
    exact .ok _
  · unfold Predicate.condition
    rw [htagged, ok_bind, if_pos hlength]
    exact .error rfl

theorem Members.safe_tagOperand (members : Members) (schema : Schema) (scopeRoot node : Node)
    (p : NodePredicate) : Safe (members.tagOperand schema scopeRoot node p) := by
  unfold Members.tagOperand
  split
  · split
    · exact .error rfl
    · exact (Member.safe_column _ _ _).bind fun _ _ => .ok _
  · exact .ok none

/-- The filters of members are safe if each tag among them has a node. -/
theorem Members.safe_filters {scopeRoot : Node}
    (htags : ∀ m ∈ members.bound, ∀ p ∈ m.node.predicates,
      p.predicate.tag.isSome → p.tagNode.isSome) :
    Safe (members.filters schema scopeRoot) := by
  refine Safe.mapM fun ⟨m, p⟩ hsource => ?_
  obtain ⟨member, hmember, hpair⟩ := List.mem_flatMap.1 hsource
  obtain ⟨_, hp, hsame⟩ := List.mem_map.1 hpair
  obtain ⟨rfl, rfl⟩ := Prod.mk.inj hsame
  refine (Member.safe_column _ _ _).bind fun column _ => ?_
  refine (members.safe_tagOperand _ _ _ _).bind fun tag htag => Predicate.safe_condition ?_
  intro hsome
  rcases Members.tagged_of_tagOperand htag with ⟨_, _, _, _, -, -, -, -, rfl⟩ | ⟨hnone, -⟩
  · rfl
  · have hnode := htags _ hmember _ hp hsome
    rcases hnone with hnone | hnone
    · simp [hnone] at hsome
    · simp [hnone] at hnode

/-- The member that owns a node is found if the node hangs off one. -/
theorem Members.safe_owner {node : Node}
    (h : ∃ owner ∈ members.bound.map Member.node, node.parent = some owner.id) :
    Safe (members.owner node) := by
  obtain ⟨owner, howner, hparent⟩ := h
  obtain ⟨m, hm, rfl⟩ := List.mem_map.1 howner
  have hfound : (members.find? m.node.id).isSome :=
    List.find?_isSome.2 ⟨m, hm, beq_self_eq_true _⟩
  obtain ⟨found, hfound⟩ := Option.isSome_iff_exists.1 hfound
  have hfinds : members.owner node = .ok found := by
    rw [Members.owner_eq_ok_iff, hparent, Option.bind_some, hfound]
  rw [hfinds]
  exact .ok found

end Members

section Binding

variable {target : Target} {scopeRoot : Node} {inFold : Bool} {supply : Sql.AliasSupply}

theorem safe_bindChild {parent : Member} {child : Node} (hedge : child.relation.edge.isSome) :
    Safe (bindChild target scopeRoot parent child supply) := by
  obtain ⟨traversal, hedge⟩ := Option.isSome_iff_exists.1 hedge
  simp only [bindChild, hedge]
  refine Emit.safe_ofSchema_bind fun table => ?_
  refine Emit.safe_bind (.ok _) fun aliasName _ _ => ?_
  exact Emit.safe_bind (Emit.safe_joinPath _ _ _ _) fun hops _ _ => .ok _

theorem safe_bindChildren {parent : Member} {children : List Group}
    (hedges : ∀ child ∈ children, child.node.relation.edge.isSome) :
    Safe (bindChildren target scopeRoot parent children supply) := by
  induction children generalizing supply with
  | nil => exact .ok _
  | cons child children ih =>
      obtain ⟨hfirst, hrest⟩ := List.forall_mem_cons.1 hedges
      refine Emit.safe_bind (safe_bindChild hfirst) fun first _ _ => ?_
      exact Emit.safe_bind (ih hrest) fun rest _ _ => .ok _

theorem safe_checkNesting (inFold : Bool) (node : Node) : Safe (checkNesting inFold node) := by
  unfold checkNesting
  split
  · exact .error rfl
  · exact .ok ()

mutual

/-- A group is bound safely if each of its vertices but the top one is reached by an edge. -/
theorem safe_bindGroup (group : Group) {aliasName : String} {supply : Sql.AliasSupply}
    (hedges : ∀ above below, group.Hangs above below → below.relation.edge.isSome) :
    Safe (bindGroup target scopeRoot inFold group aliasName supply) := by
  match group with
  | .mk node children =>
      rw [bindGroup]
      refine Emit.safe_lift_bind (safe_checkNesting inFold node) fun _ _ => ?_
      refine Emit.safe_bind (safe_bindChildren ?_) fun joined _ _ => ?_
      · exact fun child hchild => hedges _ _ (.here hchild)
      refine Emit.safe_bind (safe_bindGroups children ?_) fun below _ _ => .ok _
      exact fun child hchild above below hhangs => hedges above below (.inside hchild hhangs)

theorem safe_bindGroups (groups : List Group) {aliases : List String} {supply : Sql.AliasSupply}
    (hedges : ∀ group ∈ groups, ∀ above below, group.Hangs above below →
      below.relation.edge.isSome) :
    Safe (bindGroups target scopeRoot inFold groups aliases supply) := by
  match groups, aliases with
  | [], _ => exact .ok _
  | _ :: _, [] => exact .ok _
  | group :: groups, aliasName :: aliases =>
      obtain ⟨hfirst, hrest⟩ := List.forall_mem_cons.1 hedges
      rw [bindGroups]
      refine Emit.safe_bind (safe_bindGroup group hfirst) fun first _ _ => ?_
      exact Emit.safe_bind (safe_bindGroups groups hrest) fun rest _ _ => .ok _

end

/-- The filters of a group that was bound are safe. -/
theorem Group.Resolved.safe_filters {group : Group} (hgroup : group.Resolved) {aliasName : String}
    {members : Members} {later : Sql.AliasSupply}
    (h : bindGroup target scopeRoot inFold group aliasName supply = .ok (members, later)) :
    Safe (members.filters target.schema scopeRoot) := by
  obtain ⟨bindings, -, hnodes, -⟩ := exists_bindings_of_bindGroup _ h
  refine Members.safe_filters fun m hm => hgroup.tags m.node ?_
  rw [← hnodes]
  exact List.mem_map_of_mem hm

end Binding

section Scopes

variable {target : Target} {supply : Sql.AliasSupply}

theorem safe_foldPath {owner : Member} {node : Node} (hedge : node.relation.edge.isSome) :
    Safe (foldPath target owner node supply) := by
  obtain ⟨traversal, hedge⟩ := Option.isSome_iff_exists.1 hedge
  simp only [foldPath, hedge]
  refine Emit.safe_ofSchema_bind fun table => ?_
  refine Emit.safe_bind (.ok _) fun aliasName _ _ => ?_
  exact Emit.safe_bind (Emit.safe_joinPath _ _ _ _) fun hops _ _ => .ok _

/-- The way to a fold has a first join. -/
theorem exists_cons_of_foldPath {owner : Member} {node : Node} {path : String × List JoinHop}
    {later : Sql.AliasSupply} (h : foldPath target owner node supply = .ok (path, later)) :
    ∃ first rest, path.2 = first :: rest := by
  unfold foldPath at h
  cases hedge : node.relation.edge with
  | none => simp [hedge, Emit.throw_eq_ok_iff] at h
  | some traversal =>
      simp only [hedge, Emit.bind_eq_ok_iff, Emit.lift_eq_ok_iff, Emit.pure_eq_ok_iff,
        joinPath_eq_ok_iff] at h
      obtain ⟨_, _, -, _, _, -, hops, _, hpath, rfl, -⟩ := h
      obtain ⟨first, rest, hcons, -⟩ := hpath.exists_first
      exact ⟨first, rest, hcons⟩

theorem safe_emitFold {owner : Member} {fold : Group} (hfold : fold.Resolved)
    (hedge : fold.node.relation.edge.isSome) : Safe (emitFold target owner fold supply) := by
  refine Emit.safe_bind (safe_foldPath hedge) fun path later hpath => ?_
  obtain ⟨first, rest, hhops⟩ := exists_cons_of_foldPath hpath
  simp only [hhops]
  refine Emit.safe_bind (safe_bindGroup fold hfold.edges) fun members _ hmembers => ?_
  refine Emit.safe_lift_bind (hfold.safe_filters hmembers) fun filters _ => ?_
  refine Emit.safe_bind (.ok _) fun name _ _ => ?_
  refine Emit.safe_bind (.ok _) fun link _ _ => ?_
  exact Emit.safe_lift_bind (members.safe_outputs _) fun outputs _ => .ok _

theorem safe_emitFolds {members : Members} {folds : List Group}
    (h : ∀ fold ∈ folds, fold.Resolved ∧ fold.node.relation.edge.isSome ∧
      ∃ owner ∈ members.bound.map Member.node, fold.node.parent = some owner.id) :
    Safe (emitFolds target members folds supply) := by
  induction folds generalizing supply with
  | nil => exact .ok _
  | cons fold folds ih =>
      obtain ⟨⟨hfold, hedge, howner⟩, hrest⟩ := List.forall_mem_cons.1 h
      refine Emit.safe_lift_bind (Members.safe_owner howner) fun owner _ => ?_
      refine Emit.safe_bind (safe_emitFold hfold hedge) fun first _ _ => ?_
      exact Emit.safe_bind (ih hrest) fun rest _ _ => .ok _

theorem safe_scopeSource (entry : Option RecursionEntry) (table : Table) (aliasName : String) :
    Safe (scopeSource entry table aliasName) := by
  cases entry with
  | none => exact .ok _
  | some entry => exact (Safe.ofSchema _).bind fun key _ => .ok _

theorem safe_emitBase {scope : Scope} (h : scope.Resolved) {entry : Option RecursionEntry} :
    Safe (emitBase target entry scope.group scope.folds supply) := by
  refine Emit.safe_ofSchema_bind fun table => ?_
  refine Emit.safe_bind (.ok _) fun aliasName _ _ => ?_
  refine Emit.safe_lift_bind (safe_scopeSource entry table aliasName) fun start _ => ?_
  refine Emit.safe_bind (safe_bindGroup _ h.group.edges) fun members _ hmembers => ?_
  refine Emit.safe_lift_bind (members.safe_outputs _) fun outputs _ => ?_
  refine Emit.safe_bind (safe_emitFolds ?_) fun folded _ _ => ?_
  · obtain ⟨bindings, -, hnodes, -⟩ := exists_bindings_of_bindGroup _ hmembers
    rw [hnodes]
    exact h.folds
  exact Emit.safe_lift_bind (h.group.safe_filters hmembers) fun filters _ => .ok _

theorem safe_emitLink {members : Members} {recursion : Node}
    (howner : ∃ owner ∈ members.bound.map Member.node, recursion.parent = some owner.id)
    (hlinks : ∀ owner ∈ members.bound.map Member.node, recursion.parent = some owner.id →
      (owner.linkFor? recursion.id).isSome) :
    Safe (emitLink target members recursion supply) := by
  refine Emit.safe_lift_bind (Members.safe_owner howner) fun owner hfound => ?_
  have hlink := hlinks owner.node (List.mem_map_of_mem (Members.mem_bound_of_owner hfound))
    (Members.id_of_owner hfound)
  rw [if_neg (by simp [Option.isNone_iff_eq_none, Option.isSome_iff_ne_none.1 hlink])]
  refine Emit.safe_ofSchema_bind fun table => Emit.safe_ofSchema_bind fun key => ?_
  exact Emit.safe_bind (.ok _) fun name _ _ => .ok _

theorem safe_emitLinks {members : Members} {recursions : List Scope}
    (howners : ∀ recursion ∈ recursions,
      ∃ owner ∈ members.bound.map Member.node, recursion.node.parent = some owner.id)
    (hlinks : ∀ recursion ∈ recursions, ∀ owner ∈ members.bound.map Member.node,
      recursion.node.parent = some owner.id → (owner.linkFor? recursion.node.id).isSome) :
    Safe (emitLinks target members recursions supply) := by
  induction recursions generalizing supply with
  | nil => exact .ok _
  | cons recursion recursions ih =>
      obtain ⟨howner, howners⟩ := List.forall_mem_cons.1 howners
      obtain ⟨hlink, hlinks⟩ := List.forall_mem_cons.1 hlinks
      refine Emit.safe_bind (safe_emitLink howner hlink) fun first _ _ => ?_
      exact Emit.safe_bind (ih howners hlinks) fun rest _ _ => .ok _

namespace Recursion

theorem safe_ofRelation {relation : Relation} {name source link : String}
    (hkind : relation.kind.isRecursion) (hedge : relation.edge.isSome) :
    Safe (ofRelation target relation name source link) := by
  obtain ⟨depth, hdepth⟩ : ∃ depth, relation.recursionDepth? = some depth := by
    unfold Relation.recursionDepth?
    cases hrelation : relation.kind with
    | recurse depth => exact ⟨depth, rfl⟩
    | root | traverse | fold => simp [hrelation, RelationKind.isRecursion] at hkind
  obtain ⟨traversal, hedge⟩ := Option.isSome_iff_exists.1 hedge
  unfold ofRelation
  simp only [hdepth, hedge, throw_bind]
  split
  · exact .error rfl
  split
  · exact .error rfl
  split
  · exact .error rfl
  · exact .ok _

theorem safe_step (recursion : Recursion) : Safe (recursion.step target supply) := by
  refine Emit.safe_ofSchema_bind fun table => Emit.safe_ofSchema_bind fun key => ?_
  refine Emit.safe_ofSchema_bind fun hops => ?_
  -- Both ways on from the key take an alias for the next vertex and the joins that lead to it.
  split
  · refine Emit.safe_bind (Emit.safe_bind (.ok _) fun next _ _ => ?_) fun _ _ _ => .ok _
    exact Emit.safe_bind (Emit.safe_joinPath _ _ _ _) fun _ _ _ => .ok _
  · refine Emit.safe_bind (.ok _) fun current _ _ => ?_
    refine Emit.safe_bind (Emit.safe_bind (.ok _) fun next _ _ => ?_) fun _ _ _ => .ok _
    exact Emit.safe_bind (Emit.safe_joinPath _ _ _ _) fun _ _ _ => .ok _

theorem safe_combinator (target : Target) : Safe (combinator target) := by
  intro e h
  obtain ⟨name, -, rfl⟩ := mapError_eq_error_iff.1 h
  simp [EmitError.isInternal]

end Recursion

theorem safe_emitRecursion {scopeCte link : String} {recursion : Node}
    (hkind : recursion.relation.kind.isRecursion) (hedge : recursion.relation.edge.isSome) :
    Safe (emitRecursion target scopeCte recursion link supply) := by
  refine Emit.safe_bind (.ok _) fun name _ _ => ?_
  refine Emit.safe_lift_bind (Recursion.safe_ofRelation hkind hedge) fun walk _ => ?_
  refine Emit.safe_bind (Emit.safe_bind walk.safe_step fun step _ _ => ?_) fun _ _ _ => .ok _
  exact Emit.safe_lift_bind (Recursion.safe_combinator target) fun _ _ => .ok _

mutual

/-- A scope is emitted safely if it and all scopes within it refer to what is there. -/
theorem safe_emitScope (scope : Scope) {entry : Option RecursionEntry} {supply : Sql.AliasSupply}
    (h : ∀ inner, scope.Within inner → inner.Resolved) :
    Safe (emitScope target scope entry supply) := by
  match scope with
  | .mk group folds recursions =>
      have hscope := h _ .refl
      rw [emitScope]
      refine Emit.safe_bind (safe_emitBase hscope) fun ⟨members, base⟩ _ hbase => ?_
      -- The members are the vertices of the group, among which each recursion has its owner.
      obtain ⟨_, _, _, _, _, _, -, -, hmembers, -⟩ := baseMade_of_emitBase hbase
      obtain ⟨bindings, -, hnodes, -⟩ := exists_bindings_of_bindGroup _ hmembers
      refine Emit.safe_bind (safe_emitLinks ?_ ?_) fun links _ _ => ?_
      · rw [hnodes]
        exact fun recursion hrecursion => (hscope.recursions recursion hrecursion).2.2
      · rw [hnodes]
        exact hscope.links
      split
      · exact .ok _
      refine Emit.safe_bind (.ok _) fun scopeCte _ _ => ?_
      refine Emit.safe_bind (safe_emitRecursions recursions ?_ ?_) fun attached _ _ => .ok _
      · intro recursion hrecursion
        obtain ⟨hkind, hedge, -⟩ := hscope.recursions recursion hrecursion
        exact ⟨hkind, hedge⟩
      · exact fun recursion hrecursion inner hinner => h inner (.of_recursion hrecursion hinner)

theorem safe_emitRecursions (recursions : List Scope) {scopeRoot : Node} {scopeCte : String}
    {links : List String} {supply : Sql.AliasSupply}
    (hkinds : ∀ recursion ∈ recursions, recursion.node.relation.kind.isRecursion ∧
      recursion.node.relation.edge.isSome)
    (h : ∀ recursion ∈ recursions, ∀ inner, recursion.Within inner → inner.Resolved) :
    Safe (emitRecursions target scopeRoot scopeCte recursions links supply) := by
  match recursions, links with
  | [], _ => exact .ok _
  | _ :: _, [] => exact .ok _
  | recursion :: recursions, link :: links =>
      obtain ⟨⟨hkind, hedge⟩, hkinds⟩ := List.forall_mem_cons.1 hkinds
      obtain ⟨hfirst, hrest⟩ := List.forall_mem_cons.1 h
      rw [emitRecursions]
      refine Emit.safe_bind (safe_emitRecursion hkind hedge) fun ⟨table, entry⟩ _ _ => ?_
      refine Emit.safe_bind (safe_emitScope recursion hfirst) fun emission _ _ => ?_
      refine Emit.safe_bind (.ok _) fun name _ _ => ?_
      exact Emit.safe_bind (safe_emitRecursions recursions hkinds hrest) fun _ _ _ => .ok _

end

end Scopes

namespace QueryTree

theorem emission_of_no_outputs {tree : QueryTree} (h : tree.outputAliases = []) (target : Target) :
    tree.emission target = .error (.invalidTree .noOutputs) := by
  simp [emission, h, throw, throwThe, MonadExceptOf.throw, bind, Except.bind]

/-- The tree of a query that gives something out is emitted safely. -/
theorem safe_emission {query : Query} {read : Blocks} (hread : query.blocks = .ok read)
    (hassemblable : Assemblable read) (houtputs : read.outputs ≠ []) (target : Target) :
    Safe (read.tree.emission target) := by
  obtain ⟨root, hroot⟩ : ∃ root, read.tree.rootScope? = some root := by
    cases hnodes : read.tree.nodes with
    | nil => exact absurd hnodes (by simpa [Blocks.tree] using hassemblable.nonempty)
    | cons node later => exact ⟨_, by rw [rootScope?, hnodes]; rfl⟩
  have harranged := (Blocks.rooted_tree hassemblable.planted).arranged
  obtain ⟨-, -, hmem⟩ := rootScope?_eq_some hroot
  have hresolved : ∀ inner, root.Within inner → inner.Resolved := fun inner hinner =>
    Scope.resolved_of_mem_scopes harranged (Blocks.resolved_tree hread hassemblable)
      (hinner.mem_scopes harranged hmem)
  have hsome : read.tree.outputAliases.isEmpty = false := by simpa [Blocks.tree] using houtputs
  unfold emission
  simp only [hsome, hroot]
  refine Safe.bind (safe_emitScope root hresolved) ?_
  rintro ⟨emission, later⟩ hemission
  -- What is left to fail is the count of the outputs.
  rw [if_neg (by simp [isComplete_of_emitScope hassemblable hroot hemission])]
  exact .ok _

theorem statement_eq_error_iff {tree : QueryTree} {target : Target} {e : EmitError} :
    tree.statement target = .error e ↔ tree.emission target = .error e := by
  rw [statement, bind_eq_error_iff]
  simp [pure, Except.pure]

end QueryTree

namespace Query

theorem compile_eq_emission_error_iff {query : Query} {target : Target} {e : EmitError} :
    query.compile target = .error (.emission e) ↔
      ∃ tree, query.tree = .ok tree ∧ tree.emission target = .error e := by
  simp [compile, bind_eq_error_iff, mapError_eq_error_iff, mapError_eq_ok_iff,
    QueryTree.statement_eq_error_iff]

/-- The one internal error that a query can bring about is that it gives out nothing. -/
theorem internal_error_iff {query : Query} {target : Target} {e : EmitError}
    (he : e.isInternal) :
    query.compile target = .error (.emission e) ↔
      e = .invalidTree .noOutputs ∧ (∃ tree, query.tree = .ok tree) ∧
        query.instructions.getLast? = some (.result []) := by
  rw [compile_eq_emission_error_iff]
  constructor
  · rintro ⟨tree, htree, h⟩
    obtain ⟨read, hread, hassemblable, rfl⟩ := tree_eq_ok_iff.1 htree
    by_cases houtputs : read.outputs = []
    · rw [QueryTree.emission_of_no_outputs (by simp [Blocks.tree, houtputs])] at h
      refine ⟨(Except.error.inj h).symm, ⟨_, htree⟩, ?_⟩
      rw [getLast?_of_blocks hread, houtputs]
    · exact absurd he (QueryTree.safe_emission hread hassemblable houtputs target e h)
  · rintro ⟨rfl, ⟨tree, htree⟩, hlast⟩
    refine ⟨tree, htree, ?_⟩
    obtain ⟨read, hread, -, rfl⟩ := tree_eq_ok_iff.1 htree
    rw [getLast?_of_blocks hread, Option.some.injEq, Instruction.result.injEq] at hlast
    exact QueryTree.emission_of_no_outputs (by simp [Blocks.tree, hlast]) target

/-- No query makes the emission come upon an operator or a tag without a meaning, and it comes upon
a tree that is not put together well only where a query lists nothing to give out. -/
theorem internal_errors_unreachable (query : Query) (target : Target) :
    (∀ field, query.compile target ≠ .error (.emission (.missingTagOperand field))) ∧
      (∀ operator, query.compile target ≠ .error (.emission (.unsupportedOperator operator))) ∧
      ∀ fault, query.compile target = .error (.emission (.invalidTree fault)) ↔
        fault = .noOutputs ∧ (∃ tree, query.tree = .ok tree) ∧
          query.instructions.getLast? = some (.result []) := by
  refine ⟨fun field h => ?_, fun operator h => ?_, fun fault => ?_⟩
  · have hsame := ((internal_error_iff rfl).1 h).1
    exact absurd hsame (by simp)
  · have hsame := ((internal_error_iff rfl).1 h).1
    exact absurd hsame (by simp)
  · rw [internal_error_iff rfl, EmitError.invalidTree.injEq]

example : (ofPattern ⟨"Animal", ⟨"Animal", [], []⟩, .none⟩).compile farm =
    .error (.emission (.invalidTree .noOutputs)) := by cbv

end Query

end TraversalSql
