import TraversalSql.Proofs.Reading
import TraversalSql.Proofs.Scopes

/-!
What the nodes of a query tree can rely on.  Reading gives an edge to every vertex but the first and
a link to every recursion, and assembly finds the node of every tag; so what a node refers to is
there when SQL is emitted for it.
-/

namespace TraversalSql

open Outcome

/-- Each recursion among blocks comes with a link that asks the vertex one step back for its key. -/
def Linked (blocks : List Block) : Prop :=
  ∀ relation ∈ blocks.filterMap Block.relation?, relation.kind.isRecursion →
    ∃ link, .link link ∈ blocks ∧ link.target = relation.location ∧
      relation.location.parent? = some link.site.location

theorem Linked.append {blocks others : List Block} (h : Linked blocks) (hothers : Linked others) :
    Linked (blocks ++ others) := by
  intro relation hrelation hkind
  rw [List.filterMap_append] at hrelation
  rcases List.mem_append.1 hrelation with hrelation | hrelation
  · obtain ⟨link, hlink, hjoins⟩ := h relation hrelation hkind
    exact ⟨link, List.mem_append_left _ hlink, hjoins⟩
  · obtain ⟨link, hlink, hjoins⟩ := hothers relation hrelation hkind
    exact ⟨link, List.mem_append_right _ hlink, hjoins⟩

/-- Blocks without recursions need no links. -/
theorem Linked.of_not_isRecursion {blocks : List Block}
    (h : ∀ relation ∈ blocks.filterMap Block.relation?, ¬ relation.kind.isRecursion) :
    Linked blocks := fun relation hrelation hkind => absurd hkind (h relation hrelation)

theorem Walk.location_of_currentSite {types : TypeTable} {walk : Walk} (hwalk : walk.Recorded types)
    {current : Location} (hcurrent : walk.current = .ok current) {site : Site}
    (h : walk.currentSite = .ok site) : site.location = current := by
  unfold Walk.currentSite at h
  simp only [throw_bind, hcurrent, ok_bind] at h
  split at h
  · simp [throw_eq_ok_iff] at h
  · exact hwalk.location_of_siteAt h

namespace Query

/-- Reading one instruction gives a recursion only together with its link. -/
theorem linked_of_readInstruction {types : TypeTable} {index : Nat} {marked : Option Location}
    {walk after : Walk} {instruction : Instruction} {blocks : List Block}
    (hwalk : walk.Recorded types)
    (h : readInstruction types index marked walk instruction = .ok (blocks, after)) :
    Linked blocks := by
  have hread := (readAs_of_readInstruction hwalk h).1
  cases hread with
  | @recurse traversal depth link relation hentered =>
      simp only [readInstruction, bind_eq_ok_iff, needLocation_eq_ok_iff, pure_eq_ok_iff,
        Prod.mk.injEq] at h
      obtain ⟨location, rfl, _, hstep, site, hsite, opened, -, ⟨block, entered⟩, henter, hblocks,
        -⟩ := h
      obtain ⟨current, hcurrent, hparent⟩ := checkStep_eq_ok_iff.1 hstep
      obtain ⟨hlink, hblock⟩ := List.cons.inj hblocks
      obtain rfl := Block.link.inj hlink
      have hlocation : location = relation.location := Option.some.inj hentered.location
      intro other hother _
      obtain rfl : relation = other := by simpa [Block.relation?] using hother
      refine ⟨_, List.mem_cons_self, hlocation, ?_⟩
      rw [← hlocation, hparent, Walk.location_of_currentSite hwalk hcurrent hsite]
  | start hentered | traverse hentered | fold hentered =>
      apply Linked.of_not_isRecursion
      intro relation hrelation
      obtain rfl : relation = _ := by simpa [Block.relation?] using hrelation
      simp [hentered.kind, RelationKind.isRecursion]
  | unfold | mark | backtrack | filter | output =>
      exact Linked.of_not_isRecursion (by simp [Block.relation?])

/-- Each recursion of a query comes with its link. -/
theorem linked_of_blocks {query : Query} {read : Blocks} (h : query.blocks = .ok read) :
    Linked read.blocks := by
  have hstep : ∀ {index : Nat} {walk after : Walk} {instruction : Instruction}
      {rest : List Instruction} {earlier blocks : List Block},
      walk.Recorded query.types ∧ Linked earlier →
      readInstruction query.types index (nextMarked? (instruction :: rest)) walk instruction =
        .ok (blocks, after) →
      after.Recorded query.types ∧ Linked (earlier ++ blocks) := by
    intro index walk after instruction rest earlier blocks ⟨hwalk, hlinked⟩ hread
    exact ⟨(readAs_of_readInstruction hwalk hread).2.recorded hwalk,
      hlinked.append (linked_of_readInstruction hwalk hread)⟩
  obtain ⟨walk, -, hlinked⟩ := invariant_of_blocks
    (P := fun _ walk blocks => walk.Recorded query.types ∧ Linked blocks)
    ⟨Walk.recorded_start _, by simp [Linked]⟩ hstep id h
  exact hlinked

namespace Reading

variable {types : TypeTable} {instructions : List Instruction} {read : Blocks}

/-- Every vertex but those at which a query starts is reached by an edge. -/
theorem edge_isSome (h : Reading types instructions read) :
    ∀ relation ∈ read.relations, relation.kind ≠ .root → relation.edge.isSome := by
  unfold Blocks.relations
  induction h with
  | nil => simp
  | result => simp
  | cons hfirst _ ih =>
      rw [List.filterMap_append]
      intro relation hrelation
      rcases List.mem_append.1 hrelation with hrelation | hrelation
      · cases hfirst with
        | start hentered =>
            obtain rfl : relation = _ := by simpa [Block.relation?] using hrelation
            exact fun hkind => absurd hentered.kind hkind
        | traverse hentered | fold hentered =>
            obtain rfl : relation = _ := by simpa [Block.relation?] using hrelation
            simp [hentered.edge]
        | recurse hentered =>
            obtain rfl : _ = relation := by simpa [Block.relation?] using hrelation
            simp [hentered.edge]
        | _ => simp [Block.relation?] at hrelation
      · exact ih relation hrelation

/-- What is given out is what the last instruction lists. -/
theorem getLast? (h : Reading types instructions read)
    (hlast : instructions.getLast?.any Instruction.isResult) :
    instructions.getLast? = some (.result read.outputs) := by
  induction h with
  | nil => exact absurd hlast (by simp)
  | result => rfl
  | @cons instruction rest _ _ hfirst hrest ih =>
      cases rest with
      | nil => cases hfirst <;> exact absurd hlast (by simp [Instruction.isResult])
      | cons next rest =>
          rw [List.getLast?_cons_cons] at hlast ⊢
          exact ih hlast

end Reading

/-- A query that is read ends with the list of what it gives out. -/
theorem getLast?_of_blocks {query : Query} {read : Blocks} (h : query.blocks = .ok read) :
    query.instructions.getLast? = some (.result read.outputs) := by
  refine (reading_of_blocks h).getLast? ?_
  unfold blocks at h
  obtain ⟨_, henvelope, -⟩ := bind_eq_ok_iff.1 h
  unfold checkEnvelope at henvelope
  simp only [throw_bind] at henvelope
  split at henvelope
  · simp [throw_eq_ok_iff] at henvelope
  · split at henvelope
    · simp [throw_eq_ok_iff] at henvelope
    · next hlast => simpa using hlast

end Query

/-- Nodes all of whose references lead somewhere. -/
structure Resolved (nodes : List Node) : Prop where
  /-- A node that hangs off another one is reached by an edge. -/
  edges : ∀ node ∈ nodes, node.relation.kind ≠ .root → node.relation.edge.isSome
  /-- The tag of a filter has a node. -/
  tags : ∀ node ∈ nodes, ∀ p ∈ node.predicates, p.predicate.tag.isSome → p.tagNode.isSome
  /-- The node off which a recursion hangs exposes a key to it. -/
  links : ∀ above ∈ nodes, ∀ below ∈ nodes, below.parent = some above.id →
    below.relation.kind.isRecursion → (above.linkFor? below.id).isSome

theorem RelationKind.ne_root {kind : RelationKind}
    (h : kind.isTraverse ∨ kind.isRecursion ∨ kind.isFold) : kind ≠ .root := by
  rintro rfl
  simp [isTraverse, isRecursion, isFold] at h

/-- A group whose vertices can be joined and filtered. -/
structure Group.Resolved (group : Group) : Prop where
  edges : ∀ above below, group.Hangs above below → below.relation.edge.isSome
  tags : ∀ node ∈ group.nodes, ∀ p ∈ node.predicates, p.predicate.tag.isSome → p.tagNode.isSome

/-- A scope whose folds and recursions can be joined to the vertices that own them. -/
structure Scope.Resolved (scope : Scope) : Prop where
  group : scope.group.Resolved
  folds : ∀ fold ∈ scope.folds, fold.Resolved ∧ fold.node.relation.edge.isSome ∧
    ∃ owner ∈ scope.group.nodes, fold.node.parent = some owner.id
  recursions : ∀ recursion ∈ scope.recursions, recursion.node.relation.kind.isRecursion ∧
    recursion.node.relation.edge.isSome ∧
    ∃ owner ∈ scope.group.nodes, recursion.node.parent = some owner.id
  links : ∀ recursion ∈ scope.recursions, ∀ owner ∈ scope.group.nodes,
    recursion.node.parent = some owner.id → (owner.linkFor? recursion.node.id).isSome

namespace Scope

variable {nodes : List Node} {scope : Scope}

/-- The group of a scope refers to what is there if the nodes do from which it is cut. -/
theorem CutFrom.resolved_group (h : scope.CutFrom nodes) (hnodes : TraversalSql.Resolved nodes) :
    scope.group.Resolved where
  edges above below hhangs := hnodes.edges below (h.mem below hhangs.mem_nodes.2)
    (RelationKind.ne_root (.inl (h.hangs above below hhangs).2))
  tags node hnode := hnodes.tags node (h.mem node hnode)

/-- The scopes of nodes refer to what is there if the nodes do. -/
theorem resolved_of_mem_scopes (harranged : Arranged nodes) (hnodes : TraversalSql.Resolved nodes)
    (h : scope ∈ QueryTree.scopes nodes) : scope.Resolved := by
  have hcut := cutFrom_of_mem_scopes harranged h
  have hmem : ∀ {inner : Scope}, inner ∈ QueryTree.scopes nodes → inner.node ∈ nodes :=
    fun hinner => (cutFrom_of_mem_scopes harranged hinner).mem _ (node_mem_nodes_group _)
  refine ⟨hcut.resolved_group hnodes, ?_, ?_, ?_⟩
  · intro fold hfold
    obtain ⟨hkind, ⟨inner, hinner, rfl⟩, howner⟩ := hcut.folds fold hfold
    exact ⟨(cutFrom_of_mem_scopes harranged hinner).resolved_group hnodes,
      hnodes.edges _ (hmem hinner) (RelationKind.ne_root (.inr (.inr hkind))), howner⟩
  · intro recursion hrecursion
    obtain ⟨hkind, hinner, howner⟩ := hcut.recursions recursion hrecursion
    exact ⟨hkind, hnodes.edges _ (hmem hinner) (RelationKind.ne_root (.inr (.inl hkind))), howner⟩
  · intro recursion hrecursion owner howner hparent
    obtain ⟨hkind, hinner, -⟩ := hcut.recursions recursion hrecursion
    exact hnodes.links owner (hcut.mem owner howner) _ (hmem hinner) hparent hkind

end Scope

namespace Blocks

variable {read : Blocks}

/-- The node off which a recursion hangs is asked for its key. -/
theorem linkFor?_isSome (hplanted : Planted read.relations) (hlinked : Linked read.blocks)
    {above below : Node} (habove : above ∈ read.tree.nodes) (hbelow : below ∈ read.tree.nodes)
    (hparent : below.parent = some above.id) (hkind : below.relation.kind.isRecursion) :
    (above.linkFor? below.id).isSome := by
  have hplace := place?_location hplanted hbelow
  obtain ⟨owner, ownerRelation, howner, rfl⟩ := mem_nodes_tree_iff.1 habove
  obtain ⟨place, relation, hrelation, rfl⟩ := mem_nodes_tree_iff.1 hbelow
  obtain ⟨link, hlink, htarget, hback⟩ :=
    hlinked relation (List.mem_of_getElem? hrelation) hkind
  have hne : place ≠ 0 := by
    rintro rfl
    simp [nodeAt, bareNode, parentPlace] at hparent
  have hsite : read.place? link.site.location = some owner :=
    (parentPlace_of_parent? hne hrelation hback).symm.trans hparent
  have htarget : read.place? link.target = some place := htarget ▸ hplace
  have hmem : (place, link) ∈ (read.nodeAt owner ownerRelation).links := by
    refine List.mem_filterMap.2 ⟨.link link, hlink, ?_⟩
    simp [hsite, htarget]
  rw [Node.linkFor?, Option.isSome_map, List.find?_isSome]
  exact ⟨_, hmem, beq_self_eq_true place⟩

/-- The nodes of the tree of a query that is read refer to what is there. -/
theorem resolved_tree {query : Query} (h : query.blocks = .ok read)
    (hassemblable : Assemblable read) : Resolved read.tree.nodes where
  edges node hnode hkind := by
    obtain ⟨place, relation, hrelation, rfl⟩ := mem_nodes_tree_iff.1 hnode
    exact (Query.reading_of_blocks h).edge_isSome relation (List.mem_of_getElem? hrelation) hkind
  tags node hnode p hp htag := by
    obtain ⟨place, relation, hrelation, rfl⟩ := mem_nodes_tree_iff.1 hnode
    obtain ⟨hblock, -, hsame⟩ := mem_predicates_nodeAt hp
    obtain ⟨tag, htag⟩ := Option.isSome_iff_exists.1 htag
    rw [hsame, htag, Option.bind_some]
    exact (hassemblable.attachable _ hblock).2 tag htag
  links _ habove _ hbelow :=
    linkFor?_isSome hassemblable.planted (Query.linked_of_blocks h) habove hbelow

end Blocks

end TraversalSql
