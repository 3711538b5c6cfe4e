import TraversalSql.Proofs.Completeness
import TraversalSql.Proofs.FilterPlacement

/-!
The shape of a query tree.  Blocks may come from a query or be written by hand, and in any order:
once a tree is assembled from them, its nodes are their vertices in order and are found by location,
parents and the lists below them agree, and every filter and every output stands on the node of its
location.
-/

namespace TraversalSql

namespace Node

/-- The nodes that a node lists below it as reached in a given way.  None is listed as the start of
a query. -/
def belowAs (node : Node) : RelationKind → List Nat
  | .root => []
  | .traverse => node.children
  | .recurse _ => node.recursions
  | .fold => node.folds

def below (node : Node) : List Nat := node.children ++ node.recursions ++ node.folds

end Node

/-- A query tree has the shape that blocks give it. -/
structure QueryTree.ShapedBy (tree : QueryTree) (read : Blocks) : Prop where
  /-- The nodes are the vertices, one for one and in order. -/
  relations : tree.nodes.map Node.relation = read.blocks.filterMap Block.relation?
  /-- A node is known by its place. -/
  ids : tree.nodes.map Node.id = List.range tree.size
  /-- Exactly the locations of nodes are found, each at its own node. -/
  located : ∀ location place, tree.nodeAt? location = some place ↔
    ∃ node, tree.nodes[place]? = some node ∧ node.location = location
  /-- There is a first node, and it alone has no parent. -/
  rooted : (∃ node ∈ tree.nodes, node.id = 0) ∧
    ∀ node ∈ tree.nodes, node.parent = none ↔ node.id = 0
  /-- A parent is an earlier node, one step back. -/
  parents : ∀ node ∈ tree.nodes, ∀ above ∈ node.parent, above < node.id ∧
    ∃ owner, tree.nodes[above]? = some owner ∧ node.location.parent? = some owner.location
  /-- The parent of a node lists it once where the way of reaching it says. -/
  adopted : ∀ owner ∈ tree.nodes, ∀ node ∈ tree.nodes, node.parent = some owner.id →
    (owner.belowAs node.relation.kind).count node.id = 1
  /-- Over all its lists, a node lists once what it is the parent of, and nothing else. -/
  listed : ∀ owner ∈ tree.nodes, ∀ id, owner.below.count id =
    if ∃ node ∈ tree.nodes, node.id = id ∧ node.parent = some owner.id then 1 else 0
  /-- A node has the filters of its location, in the order of the blocks. -/
  predicates : ∀ node ∈ tree.nodes, node.predicates =
    ((read.blocks.filterMap Block.predicate?).filter (·.site.location = node.location)).map
      (Predicate.attached tree.nodeAt?)
  /-- No filter is lost, and none stands on two nodes. -/
  filtered : (tree.nodes.flatMap Node.predicates).Perm
    ((read.blocks.filterMap Block.predicate?).map (Predicate.attached tree.nodeAt?))
  /-- The nodes share out the outputs. -/
  outputs : (tree.nodes.flatMap Node.outputIndices).Perm (List.range read.outputs.length)
  /-- An output stands on the node of its source. -/
  sourced : ∀ node ∈ tree.nodes, ∀ output ∈ node.outputs,
    ∃ source, read.outputs[output.index]? = some (output.aliasName, source) ∧
      source.field = output.field ∧ source.location = node.location

theorem mem_placesOff_iff {relations : List Relation} {place below : Nat}
    {way : RelationKind → Bool} :
    below ∈ placesOff relations place way ↔ ∃ relation, relations[below]? = some relation ∧
      parentPlace relations below = some place ∧ way relation.kind := by
  rw [placesOff, List.mem_filter, List.mem_range, hangsOff]
  constructor
  · rintro ⟨hlt, hhangs⟩
    rw [List.getElem?_eq_getElem hlt, Bool.and_eq_true, beq_iff_eq] at hhangs
    exact ⟨_, List.getElem?_eq_getElem hlt, hhangs⟩
  · rintro ⟨relation, hrelation, hparent, hway⟩
    refine ⟨(List.getElem?_eq_some_iff.1 hrelation).1, ?_⟩
    rw [hrelation, hparent, Option.any_some, hway, beq_self_eq_true]
    rfl

theorem nodup_placesOff (relations : List Relation) (place : Nat) (way : RelationKind → Bool) :
    (placesOff relations place way).Nodup :=
  List.nodup_range.filter _

/-- A vertex that starts a query hangs off nothing; every other one is reached in one way. -/
theorem RelationKind.exactly_one_way {kind : RelationKind} (h : kind ≠ .root) :
    kind.isTraverse.toNat + kind.isRecursion.toNat + kind.isFold.toNat = 1 := by
  cases kind with
  | root => exact absurd rfl h
  | traverse | recurse | fold => rfl

theorem Planted.kind_ne_root {relations : List Relation} (h : Planted relations)
    {place above : Nat} {relation : Relation} (hrelation : relations[place]? = some relation)
    (habove : parentPlace relations place = some above) : relation.kind ≠ .root := by
  have hplace : place ≠ 0 := Nat.ne_of_gt (Nat.lt_of_le_of_lt (Nat.zero_le _)
    (h.parentPlace_lt habove))
  exact (h.exists_above hplace hrelation).1

namespace Blocks

variable {read : Blocks}

theorem map_relation_nodes_tree (read : Blocks) :
    read.tree.nodes.map Node.relation = read.relations := by
  apply List.ext_getElem?
  intro place
  rw [List.getElem?_map, getElem?_nodes_tree, Option.map_map]
  exact Option.map_id'

/-- The nodes of a tree are found where the vertices are. -/
theorem nodeAt?_tree (read : Blocks) : read.tree.nodeAt? = read.place? := by
  funext location
  rw [QueryTree.nodeAt?, placeOf?_eq_placeAmong, map_relation_nodes_tree, place?]

theorem size_tree (read : Blocks) : read.tree.size = read.relations.length := by
  simp [QueryTree.size, Blocks.tree]

theorem nodeAt?_tree_eq_some_iff (hplanted : Planted read.relations) {location : Location}
    {place : Nat} : read.tree.nodeAt? location = some place ↔
      ∃ node, read.tree.nodes[place]? = some node ∧ node.location = location := by
  rw [nodeAt?_tree, getElem?_nodes_tree]
  constructor
  · intro h
    obtain ⟨relation, hrelation, hlocation⟩ := placeAmong_eq_some h
    exact ⟨read.nodeAt place relation, by rw [hrelation]; rfl, hlocation⟩
  · rintro ⟨node, hnode, rfl⟩
    obtain ⟨relation, hrelation, rfl⟩ := Option.map_eq_some_iff.1 hnode
    exact placeAmong_location hplanted.distinct hrelation

/-- Every node but the first hangs off an earlier node, one step back. -/
theorem exists_owner_nodeAt (hplanted : Planted read.relations) {place : Nat} (hplace : place ≠ 0)
    {relation : Relation} (hrelation : read.relations[place]? = some relation) :
    ∃ above owner, parentPlace read.relations place = some above ∧
      read.tree.nodes[above]? = some owner ∧ relation.location.parent? = some owner.location := by
  obtain ⟨-, before, hbefore, hback⟩ := hplanted.exists_above hplace hrelation
  obtain ⟨above, habove⟩ := Option.isSome_iff_exists.1 (placeAmong_isSome_iff.2
    (List.mem_map_of_mem (f := Relation.location) (List.mem_of_mem_take hbefore)))
  obtain ⟨owner, howner, hlocation⟩ := placeAmong_eq_some habove
  refine ⟨above, read.nodeAt above owner,
    (parentPlace_of_parent? hplace hrelation hback).trans habove, ?_, ?_⟩
  · rw [getElem?_nodes_tree, howner]
    rfl
  · rw [hback, ← hlocation]
    rfl

/-- The first node alone has no parent. -/
theorem parent_eq_none_iff (hplanted : Planted read.relations) {node : Node}
    (hnode : node ∈ read.tree.nodes) : node.parent = none ↔ node.id = 0 := by
  obtain ⟨place, relation, hrelation, rfl⟩ := mem_nodes_tree_iff.1 hnode
  change parentPlace read.relations place = none ↔ place = 0
  constructor
  · intro hnone
    by_contra hplace
    obtain ⟨above, owner, hsome, -⟩ := exists_owner_nodeAt hplanted hplace hrelation
    exact absurd (hsome.symm.trans hnone) (Option.some_ne_none above)
  · rintro rfl
    rfl

/-- A parent is an earlier node, one step back. -/
theorem lt_and_exists_owner (hplanted : Planted read.relations) {node : Node}
    (hnode : node ∈ read.tree.nodes) {above : Nat} (habove : node.parent = some above) :
    above < node.id ∧ ∃ owner, read.tree.nodes[above]? = some owner ∧
      node.location.parent? = some owner.location := by
  have hid : node.id ≠ 0 := by
    intro hzero
    exact absurd (habove.symm.trans ((parent_eq_none_iff hplanted hnode).2 hzero))
      (Option.some_ne_none above)
  obtain ⟨place, relation, hrelation, rfl⟩ := mem_nodes_tree_iff.1 hnode
  obtain ⟨found, owner, hfound, howner, hback⟩ := exists_owner_nodeAt hplanted hid hrelation
  obtain rfl : found = above := Option.some.inj (hfound.symm.trans habove)
  exact ⟨hplanted.parentPlace_lt hfound, owner, howner, hback⟩

/-- The list in which a node keeps those that are reached in the way of a given vertex. -/
theorem exists_belowAs_nodeAt (read : Blocks) {kind : RelationKind} (hkind : kind ≠ .root)
    (place : Nat) (relation : Relation) : ∃ way, way kind = true ∧
      (read.nodeAt place relation).belowAs kind = placesOff read.relations place way := by
  cases kind with
  | root => exact absurd rfl hkind
  | traverse => exact ⟨RelationKind.isTraverse, rfl, rfl⟩
  | recurse => exact ⟨RelationKind.isRecursion, rfl, rfl⟩
  | fold => exact ⟨RelationKind.isFold, rfl, rfl⟩

/-- The parent of a node lists it once in the list of its way. -/
theorem count_belowAs_of_parent (hplanted : Planted read.relations) {owner node : Node}
    (howner : owner ∈ read.tree.nodes) (hnode : node ∈ read.tree.nodes)
    (hparent : node.parent = some owner.id) :
    (owner.belowAs node.relation.kind).count node.id = 1 := by
  obtain ⟨above, found, -, rfl⟩ := mem_nodes_tree_iff.1 howner
  obtain ⟨place, relation, hrelation, rfl⟩ := mem_nodes_tree_iff.1 hnode
  have hparent : parentPlace read.relations place = some above := hparent
  obtain ⟨way, hway, hlist⟩ := read.exists_belowAs_nodeAt
    (hplanted.kind_ne_root hrelation hparent) above found
  change ((read.nodeAt above found).belowAs relation.kind).count place = 1
  rw [hlist]
  exact List.count_eq_one_of_mem (nodup_placesOff _ _ _)
    (mem_placesOff_iff.2 ⟨relation, hrelation, hparent, hway⟩)

theorem count_below_nodeAt (hplanted : Planted read.relations) (place id : Nat)
    (relation : Relation) : (read.nodeAt place relation).below.count id =
      if parentPlace read.relations id = some place then 1 else 0 := by
  have hcount : ∀ way, (placesOff read.relations place way).count id =
      if id ∈ placesOff read.relations place way then 1 else 0 := fun way =>
    (nodup_placesOff read.relations place way).count
  change (placesOff read.relations place RelationKind.isTraverse
    ++ placesOff read.relations place RelationKind.isRecursion
    ++ placesOff read.relations place RelationKind.isFold).count id = _
  simp only [List.count_append, hcount, mem_placesOff_iff]
  by_cases hparent : parentPlace read.relations id = some place
  · obtain ⟨found, hfound⟩ := exists_of_parentPlace hparent
    have hone := RelationKind.exactly_one_way (hplanted.kind_ne_root hfound hparent)
    simpa [hfound, hparent, Bool.toNat, Bool.cond_eq_ite] using hone
  · simp [hparent]

/-- Over all its lists a node lists once what hangs off it, and nothing else. -/
theorem count_below_of_mem (hplanted : Planted read.relations) {owner : Node}
    (howner : owner ∈ read.tree.nodes) (id : Nat) :
    owner.below.count id =
      if ∃ node ∈ read.tree.nodes, node.id = id ∧ node.parent = some owner.id then 1 else 0 := by
  obtain ⟨place, relation, -, rfl⟩ := mem_nodes_tree_iff.1 howner
  rw [count_below_nodeAt hplanted]
  refine if_congr ?_ rfl rfl
  constructor
  · intro hparent
    obtain ⟨found, hfound⟩ := exists_of_parentPlace hparent
    exact ⟨read.nodeAt id found, mem_nodes_tree_iff.2 ⟨id, found, hfound, rfl⟩, rfl, hparent⟩
  · rintro ⟨node, hnode, rfl, hparent⟩
    obtain ⟨below, found, -, rfl⟩ := mem_nodes_tree_iff.1 hnode
    exact hparent

/-- A node has the filters of its location. -/
theorem predicates_of_mem_nodes (hplanted : Planted read.relations) {node : Node}
    (hnode : node ∈ read.tree.nodes) :
    node.predicates =
      ((read.blocks.filterMap Block.predicate?).filter (·.site.location = node.location)).map
        (Predicate.attached read.place?) := by
  have hplace : ∀ location, read.place? location = some node.id ↔ location = node.location := by
    intro location
    constructor
    · exact fun h => (location_of_place? hnode h).symm
    · rintro rfl
      exact place?_location hplanted hnode
  obtain ⟨place, relation, -, rfl⟩ := mem_nodes_tree_iff.1 hnode
  change predicatesAt read.place? (read.nodeAt place relation).id read.blocks = _
  rw [predicatesAt, List.filter_filterMap, List.map_filterMap]
  apply List.filterMap_congr
  intro block _
  cases block with
  | predicate p => simp [Block.predicate?, hplace, Predicate.attached, Option.filter]
  | relation | selection | link => rfl

end Blocks

namespace QueryTree

/-- An assembled tree has the shape that its blocks give it. -/
theorem shapedBy_of_ofBlocks {read : Blocks} {tree : QueryTree} (h : ofBlocks read = .ok tree) :
    tree.ShapedBy read := by
  obtain ⟨hread, rfl⟩ := ofBlocks_eq_ok_iff.1 h
  have hplanted := hread.planted
  constructor
  case relations => exact Blocks.map_relation_nodes_tree read
  case ids => rw [Blocks.map_id_nodes_tree, Blocks.size_tree]
  case located => exact fun _ _ => Blocks.nodeAt?_tree_eq_some_iff hplanted
  case rooted =>
    refine ⟨?_, fun _ => Blocks.parent_eq_none_iff hplanted⟩
    have hfirst : 0 ∈ read.tree.nodes.map Node.id := by
      rw [Blocks.map_id_nodes_tree, List.mem_range]
      exact List.length_pos_iff.2 hread.nonempty
    exact List.mem_map.1 hfirst
  case parents => exact fun _ hnode _ => Blocks.lt_and_exists_owner hplanted hnode
  case adopted => exact fun _ howner _ => Blocks.count_belowAs_of_parent hplanted howner
  case listed => exact fun _ => Blocks.count_below_of_mem hplanted
  case predicates =>
    rw [Blocks.nodeAt?_tree]
    exact fun _ => Blocks.predicates_of_mem_nodes hplanted
  case filtered =>
    rw [Blocks.nodeAt?_tree]
    exact Blocks.predicates_nodes_perm hread
  case outputs => exact Blocks.outputIndices_tree_perm hread
  case sourced =>
    intro node hnode output houtput
    obtain ⟨source, hget, hfield, hlocation⟩ := Blocks.exists_source_of_mem_outputs hnode houtput
    exact ⟨source, hget, hfield, hlocation.symm⟩

/-- Blocks written by hand: a filter and a key stand before their vertices, the first vertex is said
to be a fold, and below it there is one vertex of each kind. -/
def scattered : Blocks where
  blocks := [
    .predicate ⟨child, "name", ["$names"], .inCollection, none⟩,
    .link ⟨animal, ⟨"parent", .outward⟩, ⟨["Animal", "out_parent"]⟩⟩,
    .relation ⟨animal, .fold, none⟩,
    .relation ⟨⟨⟨["Animal", "out_parent"]⟩, false, false, true, "Animal", some "Animal"⟩,
      .recurse 3, some ⟨"parent", .outward⟩⟩,
    .relation ⟨child, .traverse, some ⟨"child", .outward⟩⟩,
    .predicate ⟨child, "weight", [], .less, some ⟨⟨["Animal"]⟩, "weight"⟩⟩,
    .relation ⟨⟨⟨["Animal", "in_owns"]⟩, false, true, false, "Person", some "Animal"⟩,
      .fold, some ⟨"owns", .inward⟩⟩]
  outputs := [("child", ⟨child.location, "name"⟩), ("animal", ⟨animal.location, "name"⟩),
    ("weight", ⟨child.location, "weight"⟩)]
where
  animal : Site := ⟨⟨["Animal"]⟩, false, false, false, "Animal", none⟩
  child : Site := ⟨⟨["Animal", "out_child"]⟩, false, false, false, "Animal", some "Animal"⟩

theorem shapedBy_scattered :
    ∃ tree, ofBlocks scattered = .ok tree ∧ tree.size = 4 ∧ tree.ShapedBy scattered := by
  obtain ⟨tree, htree⟩ := Outcome.exists_of_isOk (show (ofBlocks scattered).isOk = true by cbv)
  have hshape := shapedBy_of_ofBlocks htree
  refine ⟨tree, htree, ?_, hshape⟩
  calc tree.size = (tree.nodes.map Node.relation).length := (List.length_map _).symm
    _ = 4 := by rw [hshape.relations]; rfl

end QueryTree

end TraversalSql
