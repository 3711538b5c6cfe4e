import TraversalSql.Proofs.Outcome
import TraversalSql.QueryTree

/-!
What a query tree is made of.  The tree of some blocks is described node by node, as a function of
the blocks and without reference to the order in which the nodes are filled; assembly succeeds
exactly on the blocks that are `Assemblable`, and then gives this tree.
-/

namespace TraversalSql

def Relation.location (relation : Relation) : Location := relation.site.location

namespace RelationKind

/-- Whether a vertex is reached by a plain crossing. -/
def isTraverse : RelationKind → Bool
  | .traverse => true
  | _ => false

/-- Whether a vertex is reached by a recursion. -/
def isRecursion : RelationKind → Bool
  | .recurse _ => true
  | _ => false

/-- Whether a vertex is reached by a fold. -/
def isFold : RelationKind → Bool
  | .fold => true
  | _ => false

end RelationKind

/-- The place of the vertex at a location. -/
def placeAmong (relations : List Relation) (location : Location) : Option Nat :=
  relations.findIdx? fun relation => relation.location == location

/-- The place of the vertex one step back from the one at a place; the first vertex has none. -/
def parentPlace (relations : List Relation) (place : Nat) : Option Nat :=
  if place = 0 then none
  else (relations[place]?).bind fun relation =>
    relation.location.parent?.bind (placeAmong relations)

/-- Whether the vertex at `below` hangs off the one at `place` and is reached in a given way. -/
def hangsOff (relations : List Relation) (place : Nat) (way : RelationKind → Bool) (below : Nat) :
    Bool :=
  parentPlace relations below == some place && (relations[below]?).any fun r => way r.kind

/-- The places of the vertices that hang off the one at a place and are reached in a given way. -/
def placesOff (relations : List Relation) (place : Nat) (way : RelationKind → Bool) : List Nat :=
  (List.range relations.length).filter (hangsOff relations place way)

/-- The node of a vertex before filters, keys and outputs are attached. -/
def bareNode (relations : List Relation) (place : Nat) (relation : Relation) : Node where
  id := place
  relation := relation
  parent := parentPlace relations place
  children := placesOff relations place RelationKind.isTraverse
  recursions := placesOff relations place RelationKind.isRecursion
  folds := placesOff relations place RelationKind.isFold
  outputs := []
  predicates := []
  links := []

def bareNodes (relations : List Relation) : List Node := relations.mapIdx (bareNode relations)

/-- The filters that are attached to the node at a place, when locations have given places. -/
def predicatesAt (placeOf : Location → Option Nat) (place : Nat) (blocks : List Block) :
    List NodePredicate :=
  blocks.filterMap fun
    | .predicate p =>
        if placeOf p.site.location = some place then
          some ⟨p, p.tag.bind fun tag => placeOf tag.location⟩
        else none
    | _ => none

/-- The keys that the node at a place exposes, when locations have given places. -/
def linksAt (placeOf : Location → Option Nat) (place : Nat) (blocks : List Block) :
    List (Nat × Link) :=
  blocks.filterMap fun
    | .link l =>
        if placeOf l.site.location = some place then (placeOf l.target).map (·, l) else none
    | _ => none

/-- The outputs that are attached to the node at a place, of which the first has a given index. -/
def outputsAt (placeOf : Location → Option Nat) (place : Nat) (index : Nat)
    (outputs : List (String × FieldRef)) : List NodeOutput :=
  (outputs.zipIdx index).filterMap fun ((aliasName, source), index) =>
    if placeOf source.location = some place then some ⟨source.field, aliasName, index⟩ else none

namespace Blocks

def relations (read : Blocks) : List Relation := read.blocks.filterMap Block.relation?

/-- The place of the node of a location. -/
def place? (read : Blocks) (location : Location) : Option Nat := placeAmong read.relations location

/-- The node of a vertex with all that is attached to it. -/
def nodeAt (read : Blocks) (place : Nat) (relation : Relation) : Node :=
  { bareNode read.relations place relation with
    outputs := outputsAt read.place? place 0 read.outputs
    predicates := predicatesAt read.place? place read.blocks
    links := linksAt read.place? place read.blocks }

def tree (read : Blocks) : QueryTree :=
  ⟨read.relations.mapIdx read.nodeAt, read.outputs.map Prod.fst⟩

end Blocks

/-- Vertices that form a tree in their order: no two share a location, and each but the first is
reached from an earlier one, which is one step back. -/
structure Planted (relations : List Relation) : Prop where
  distinct : (relations.map Relation.location).Nodup
  hung : ∀ before relation after, relations = before ++ relation :: after → before ≠ [] →
    relation.kind ≠ .root ∧
      ∃ above ∈ before, relation.location.parent? = some above.location

/-- A block that can be attached when locations have given places. -/
def Attachable (placeOf : Location → Option Nat) : Block → Prop
  | .predicate p =>
      (placeOf p.site.location).isSome ∧ ∀ tag ∈ p.tag, (placeOf tag.location).isSome
  | .link l => (placeOf l.site.location).isSome ∧ (placeOf l.target).isSome
  | _ => True

/-- Blocks that form a query tree. -/
structure Assemblable (read : Blocks) : Prop where
  nonempty : read.relations ≠ []
  planted : Planted read.relations
  attachable : ∀ block ∈ read.blocks, Attachable read.place? block
  sourced : ∀ output ∈ read.outputs, (read.place? output.2.location).isSome
  listed : ∀ selection, .selection selection ∈ read.blocks →
    QueryTree.isListed read.outputs selection

open Outcome

theorem placeAmong_isSome_iff {relations : List Relation} {location : Location} :
    (placeAmong relations location).isSome ↔ location ∈ relations.map Relation.location := by
  simp [placeAmong, List.findIdx?_isSome]

theorem placeAmong_eq_some {relations : List Relation} {location : Location} {place : Nat}
    (h : placeAmong relations location = some place) :
    ∃ relation, relations[place]? = some relation ∧ relation.location = location := by
  obtain ⟨hlt, hfound, -⟩ := List.findIdx?_eq_some_iff_getElem.1 h
  exact ⟨relations[place], List.getElem?_eq_getElem hlt, by simpa using hfound⟩

theorem placeAmong_append_of_mem {relations : List Relation} {location : Location}
    (h : location ∈ relations.map Relation.location) (more : List Relation) :
    placeAmong (relations ++ more) location = placeAmong relations location := by
  obtain ⟨place, hplace⟩ := Option.isSome_iff_exists.1 (placeAmong_isSome_iff.2 h)
  have hfound : relations.findIdx? (fun r => r.location == location) = some place := hplace
  simp [placeAmong, List.findIdx?_append, hfound]

/-- Where no two vertices share a location, a vertex is found at its own place. -/
theorem placeAmong_location {relations : List Relation}
    (hdistinct : (relations.map Relation.location).Nodup) {place : Nat} {relation : Relation}
    (hrelation : relations[place]? = some relation) :
    placeAmong relations relation.location = some place := by
  have hmem : relation ∈ relations := List.mem_of_getElem? hrelation
  obtain ⟨found, hfound⟩ := Option.isSome_iff_exists.1
    (placeAmong_isSome_iff.2 (List.mem_map_of_mem (f := Relation.location) hmem))
  obtain ⟨other, hother, hlocation⟩ := placeAmong_eq_some hfound
  have hlt : found < (relations.map Relation.location).length := by
    have := (List.getElem?_eq_some_iff.1 hother).1
    simpa using this
  have hsame : found = place := by
    apply (List.getElem?_inj hlt hdistinct).1
    simp [hother, hrelation, hlocation]
  rw [hfound, hsame]

theorem Planted.nil : Planted [] where
  distinct := by simp
  hung := by simp

/-- Vertices stay a tree when one is added exactly if its location is new and, where it is not the
first, it hangs off one that is there. -/
theorem planted_concat_iff {relations : List Relation} {relation : Relation} :
    Planted (relations ++ [relation]) ↔
      Planted relations ∧ relation.location ∉ relations.map Relation.location ∧
        (relations ≠ [] → relation.kind ≠ .root ∧
          ∃ above ∈ relations, relation.location.parent? = some above.location) := by
  constructor
  · intro h
    have hdistinct := h.distinct
    rw [List.map_append, List.map_singleton, List.nodup_append'] at hdistinct
    refine ⟨⟨hdistinct.1, ?_⟩, by simpa using hdistinct.2.2, h.hung relations relation [] rfl⟩
    intro before other after hsplit
    apply h.hung before other (after ++ [relation])
    simp [hsplit]
  · rintro ⟨h, hnew, hhung⟩
    refine ⟨?_, ?_⟩
    · rw [List.map_append, List.map_singleton, List.nodup_append']
      exact ⟨h.distinct, by simp, by simpa using hnew⟩
    · intro before other after hsplit hbefore
      rcases List.eq_nil_or_concat after with rfl | ⟨after, last, rfl⟩
      · obtain ⟨rfl, hother⟩ := List.append_inj' hsplit rfl
        obtain rfl : relation = other := by simpa using hother
        exact hhung hbefore
      · have hsplit : relations ++ [relation] = (before ++ other :: after) ++ [last] := by
          simpa using hsplit
        obtain ⟨rfl, -⟩ := List.append_inj' hsplit rfl
        exact h.hung before other after rfl hbefore

theorem eq_take_append_cons_drop {α : Type} {l : List α} {index : Nat} {a : α}
    (h : l[index]? = some a) : l = l.take index ++ a :: l.drop (index + 1) := by
  obtain ⟨hlt, rfl⟩ := List.getElem?_eq_some_iff.1 h
  rw [← List.drop_eq_getElem_cons, List.take_append_drop]

/-- In a tree every vertex but the first hangs off an earlier one. -/
theorem Planted.exists_above {relations : List Relation} (h : Planted relations) {place : Nat}
    (hplace : place ≠ 0) {relation : Relation} (hrelation : relations[place]? = some relation) :
    relation.kind ≠ .root ∧ ∃ above ∈ relations.take place,
      relation.location.parent? = some above.location := by
  have hlt := (List.getElem?_eq_some_iff.1 hrelation).1
  have hbefore : relations.take place ≠ [] := by
    rw [Ne, List.take_eq_nil_iff, not_or]
    exact ⟨hplace, List.ne_nil_of_length_pos (by omega)⟩
  exact h.hung _ _ _ (eq_take_append_cons_drop hrelation) hbefore

theorem parentPlace_of_parent? {relations : List Relation} {place : Nat} (hplace : place ≠ 0)
    {relation : Relation} (hrelation : relations[place]? = some relation) {above : Location}
    (habove : relation.location.parent? = some above) :
    parentPlace relations place = placeAmong relations above := by
  simp [parentPlace, hplace, hrelation, habove]

theorem exists_of_parentPlace {relations : List Relation} {place above : Nat}
    (h : parentPlace relations place = some above) :
    ∃ relation, relations[place]? = some relation := by
  cases hget : relations[place]? with
  | none => simp [parentPlace, hget] at h
  | some relation => exact ⟨relation, rfl⟩

/-- In a tree a vertex hangs off an earlier one. -/
theorem Planted.parentPlace_lt {relations : List Relation} (h : Planted relations)
    {place parent : Nat} (hparent : parentPlace relations place = some parent) :
    parent < place := by
  have hne : place ≠ 0 := by
    rintro rfl
    simp [parentPlace] at hparent
  obtain ⟨relation, hrelation⟩ := exists_of_parentPlace hparent
  obtain ⟨-, above, habove, hback⟩ := h.exists_above hne hrelation
  rw [parentPlace_of_parent? hne hrelation hback, ← List.take_append_drop place relations,
    placeAmong_append_of_mem (List.mem_map_of_mem habove)] at hparent
  obtain ⟨found, hfound, -⟩ := placeAmong_eq_some hparent
  have hlt := (List.getElem?_eq_some_iff.1 hfound).1
  rw [List.length_take] at hlt
  omega

/-- A vertex that is added does not change what the others hang off. -/
theorem parentPlace_append_of_lt {relations : List Relation} (h : Planted relations)
    (more : List Relation) {place : Nat} (hplace : place < relations.length) :
    parentPlace (relations ++ more) place = parentPlace relations place := by
  unfold parentPlace
  split
  · rfl
  · next hne =>
    obtain ⟨-, above, habove, hparent⟩ :=
      h.exists_above hne (List.getElem?_eq_getElem hplace)
    rw [List.getElem?_append_left hplace, List.getElem?_eq_getElem hplace]
    simp only [Option.bind_some, hparent]
    exact placeAmong_append_of_mem (List.mem_map_of_mem (List.mem_of_mem_take habove)) more

/-- A vertex that is added hangs off the vertex one step back, and off no other. -/
theorem placesOff_concat {relations : List Relation} (h : Planted relations) (place : Nat)
    (way : RelationKind → Bool) (relation : Relation) :
    placesOff (relations ++ [relation]) place way =
      placesOff relations place way ++
        if parentPlace (relations ++ [relation]) relations.length = some place ∧ way relation.kind
        then [relations.length] else [] := by
  have hold : (List.range relations.length).filter
      (hangsOff (relations ++ [relation]) place way) = placesOff relations place way := by
    apply List.filter_congr
    intro below hbelow
    have hlt := List.mem_range.1 hbelow
    simp [hangsOff, parentPlace_append_of_lt h [relation] hlt, List.getElem?_append_left hlt]
  rw [placesOff, List.length_append, List.length_singleton, List.range_succ, List.filter_append,
    hold]
  congr 1
  by_cases hhangs : hangsOff (relations ++ [relation]) place way relations.length
  · simp_all [hangsOff]
  · simp_all [hangsOff]

/-- What hangs off a node after a vertex is added below it. -/
theorem adopt?_bareNode {relations : List Relation} (h : Planted relations)
    {relation owner : Relation} {place : Nat}
    (hplace : parentPlace (relations ++ [relation]) relations.length = some place)
    (hlt : place < relations.length) (hkind : relation.kind ≠ .root) :
    (bareNode relations place owner).adopt? relations.length relation.kind =
      some (bareNode (relations ++ [relation]) place owner) := by
  cases hrel : relation.kind with
  | root => exact absurd hrel hkind
  | traverse =>
      simp [bareNode, Node.adopt?, placesOff_concat h, hplace, hrel, RelationKind.isTraverse,
        RelationKind.isRecursion, RelationKind.isFold, parentPlace_append_of_lt h _ hlt]
  | recurse depth =>
      simp [bareNode, Node.adopt?, placesOff_concat h, hplace, hrel, RelationKind.isTraverse,
        RelationKind.isRecursion, RelationKind.isFold, parentPlace_append_of_lt h _ hlt]
  | fold =>
      simp [bareNode, Node.adopt?, placesOff_concat h, hplace, hrel, RelationKind.isTraverse,
        RelationKind.isRecursion, RelationKind.isFold, parentPlace_append_of_lt h _ hlt]

theorem bareNode_append_of_ne {relations : List Relation} (h : Planted relations)
    {relation owner : Relation} {place other : Nat}
    (hplace : parentPlace (relations ++ [relation]) relations.length = some place)
    (hlt : other < relations.length) (hne : other ≠ place) :
    bareNode (relations ++ [relation]) other owner = bareNode relations other owner := by
  simp [bareNode, placesOff_concat h, hplace, hne.symm, parentPlace_append_of_lt h _ hlt]

/-- Nothing hangs off the last vertex of a tree. -/
theorem Planted.placesOff_last {relations : List Relation} {relation : Relation}
    (h : Planted (relations ++ [relation])) (way : RelationKind → Bool) :
    placesOff (relations ++ [relation]) relations.length way = [] := by
  rw [placesOff, List.filter_eq_nil_iff]
  intro below hbelow hhangs
  have hlt : below < relations.length + 1 := by simpa using hbelow
  simp only [hangsOff, Bool.and_eq_true, beq_iff_eq] at hhangs
  have := h.parentPlace_lt hhangs.1
  omega

@[simp]
theorem length_bareNodes (relations : List Relation) :
    (bareNodes relations).length = relations.length := by
  simp [bareNodes]

theorem getElem?_bareNodes (relations : List Relation) (place : Nat) :
    (bareNodes relations)[place]? = (relations[place]?).map (bareNode relations place) := by
  simp [bareNodes]

/-- Nodes are found by the locations of their vertices. -/
theorem placeOf?_eq_placeAmong (nodes : List Node) (location : Location) :
    QueryTree.placeOf? nodes location = placeAmong (nodes.map Node.relation) location := by
  simp [QueryTree.placeOf?, placeAmong, Node.location, Relation.location, List.findIdx?_map,
    Function.comp_def]

@[simp]
theorem map_relation_bareNodes (relations : List Relation) :
    (bareNodes relations).map Node.relation = relations := by
  apply List.ext_getElem?
  intro place
  simp [getElem?_bareNodes, bareNode, Option.map_map, Function.comp_def]

/-- Adding a vertex to a tree changes the node off which it hangs and no other. -/
theorem bareNodes_concat {relations : List Relation} {relation owner : Relation} {place : Nat}
    (h : Planted (relations ++ [relation])) (howner : relations[place]? = some owner)
    (hplace : parentPlace (relations ++ [relation]) relations.length = some place) :
    bareNodes (relations ++ [relation]) =
      (bareNodes relations).set place (bareNode (relations ++ [relation]) place owner) ++
        [Node.ofRelation relations.length relation (some place)] := by
  have hbefore := (planted_concat_iff.1 h).1
  rw [bareNodes, List.mapIdx_append]
  congr 1
  · apply List.ext_getElem?
    intro other
    rw [List.getElem?_mapIdx, List.getElem?_set, getElem?_bareNodes, length_bareNodes]
    by_cases hother : place = other
    · subst hother
      have hlt := (List.getElem?_eq_some_iff.1 howner).1
      rw [howner, if_pos rfl, if_pos hlt]
      rfl
    · rw [if_neg hother]
      cases hget : relations[other]? with
      | none => rfl
      | some vertex =>
          have hlt := (List.getElem?_eq_some_iff.1 hget).1
          simp [bareNode_append_of_ne hbefore hplace hlt (Ne.symm hother)]
  · simp [bareNode, Node.ofRelation, hplace, h.placesOff_last]

theorem placeOf?_bareNodes_isSome_iff {relations : List Relation} {location : Location} :
    (QueryTree.placeOf? (bareNodes relations) location).isSome ↔
      location ∈ relations.map Relation.location := by
  rw [placeOf?_eq_placeAmong, map_relation_bareNodes, placeAmong_isSome_iff]

theorem placeOf_eq_ok_iff {nodes : List Node} {location : Location} {place : Nat} :
    QueryTree.placeOf nodes location = .ok place ↔
      placeAmong (nodes.map Node.relation) location = some place := by
  rw [QueryTree.placeOf, placeOf?_eq_placeAmong]
  cases placeAmong (nodes.map Node.relation) location <;> simp

/-- A vertex with which the vertices of a tree stay a tree is added. -/
theorem addRelation_of_planted {relations : List Relation} {relation : Relation}
    (h : Planted (relations ++ [relation])) :
    QueryTree.addRelation (bareNodes relations) relation =
      .ok (bareNodes (relations ++ [relation])) := by
  obtain ⟨hbefore, hnew, hhung⟩ := planted_concat_iff.1 h
  have hfresh : ¬ (QueryTree.placeOf? (bareNodes relations) relation.site.location).isSome :=
    fun hsome => hnew (placeOf?_bareNodes_isSome_iff.1 hsome)
  unfold QueryTree.addRelation
  rw [if_neg hfresh]
  by_cases hempty : relations = []
  · subst hempty
    simp [bareNodes, bareNode, Node.ofRelation, placesOff, hangsOff, parentPlace, pure, Except.pure]
  · obtain ⟨hkind, above, habove, hparent⟩ := hhung hempty
    obtain ⟨place, hplace⟩ := Option.isSome_iff_exists.1
      (placeAmong_isSome_iff.2 (List.mem_map_of_mem (f := Relation.location) habove))
    obtain ⟨owner, howner, -⟩ := placeAmong_eq_some hplace
    have hhangs : parentPlace (relations ++ [relation]) relations.length = some place := by
      have hlength : relations.length ≠ 0 := by simpa using hempty
      rw [parentPlace_of_parent? hlength (by simp) hparent,
        placeAmong_append_of_mem (List.mem_map_of_mem habove), hplace]
    have hnodes : ¬ (bareNodes relations).isEmpty := by
      simpa [bareNodes] using hempty
    have hfound : QueryTree.placeOf (bareNodes relations) above.location = .ok place := by
      rw [placeOf_eq_ok_iff, map_relation_bareNodes, hplace]
    have hadopt := @adopt?_bareNode _ hbefore _ owner _ hhangs
      (List.getElem?_eq_some_iff.1 howner).1 hkind
    have hparent : relation.site.location.parent? = some above.location := hparent
    rw [if_neg hnodes, bareNodes_concat h howner hhangs]
    simp only [hparent, hfound, ok_bind, getElem?_bareNodes, howner, Option.map_some,
      Option.bind_some, length_bareNodes, hadopt]
    rfl

/-- A vertex that is added leaves the vertices of a tree a tree. -/
theorem planted_of_addRelation {relations : List Relation} (h : Planted relations)
    {relation : Relation} {nodes : List Node}
    (hadd : QueryTree.addRelation (bareNodes relations) relation = .ok nodes) :
    Planted (relations ++ [relation]) := by
  unfold QueryTree.addRelation at hadd
  simp only [throw_bind] at hadd
  rw [planted_concat_iff]
  split at hadd
  · simp [throw_eq_ok_iff] at hadd
  next hfresh =>
  refine ⟨h, fun hmem => hfresh (placeOf?_bareNodes_isSome_iff.2 hmem), ?_⟩
  -- Only the first vertex may be a root: any later one is adopted by the vertex one step back.
  intro hempty
  have hnodes : ¬ (bareNodes relations).isEmpty := by
    simpa [bareNodes] using hempty
  rw [if_neg hnodes] at hadd
  split at hadd
  · next above hparent =>
    obtain ⟨place, hplace, hadopt⟩ := bind_eq_ok_iff.1 hadd
    rw [placeOf_eq_ok_iff, map_relation_bareNodes] at hplace
    obtain ⟨owner, howner, rfl⟩ := placeAmong_eq_some hplace
    refine ⟨?_, owner, List.mem_of_getElem? howner, hparent⟩
    intro hroot
    simp [getElem?_bareNodes, howner, hroot, Node.adopt?, throw_eq_ok_iff] at hadopt
  · simp [throw_eq_ok_iff] at hadd

/-- The nodes of vertices exist exactly if the vertices form a tree. -/
theorem foldlM_addRelation_eq_ok_iff {relations : List Relation} {nodes : List Node} :
    relations.foldlM QueryTree.addRelation [] = .ok nodes ↔
      Planted relations ∧ nodes = bareNodes relations := by
  induction relations using List.reverseRecOn generalizing nodes with
  | nil =>
      rw [List.foldlM_nil, pure_eq_ok_iff]
      exact ⟨fun h => ⟨Planted.nil, h.symm⟩, fun h => h.2.symm⟩
  | append_singleton relations relation ih =>
      rw [List.foldlM_append, bind_eq_ok_iff]
      simp only [List.foldlM_cons, List.foldlM_nil, bind_pure, ih]
      constructor
      · rintro ⟨_, ⟨hbefore, rfl⟩, hadd⟩
        have hplanted := planted_of_addRelation hbefore hadd
        rw [addRelation_of_planted hplanted, Except.ok.injEq] at hadd
        exact ⟨hplanted, hadd.symm⟩
      · rintro ⟨hplanted, rfl⟩
        exact ⟨_, ⟨(planted_concat_iff.1 hplanted).1, rfl⟩, addRelation_of_planted hplanted⟩

/-- The nodes with the filters and keys of blocks attached, when locations have given places. -/
def withBlocks (placeOf : Location → Option Nat) (blocks : List Block) (nodes : List Node) :
    List Node :=
  nodes.mapIdx fun place node =>
    { node with
      predicates := node.predicates ++ predicatesAt placeOf place blocks
      links := node.links ++ linksAt placeOf place blocks }

/-- The nodes with outputs attached, of which the first has a given index. -/
def withOutputs (placeOf : Location → Option Nat) (index : Nat)
    (outputs : List (String × FieldRef)) (nodes : List Node) : List Node :=
  nodes.mapIdx fun place node =>
    { node with outputs := node.outputs ++ outputsAt placeOf place index outputs }

@[simp]
theorem map_relation_withBlocks (placeOf : Location → Option Nat) (blocks : List Block)
    (nodes : List Node) :
    (withBlocks placeOf blocks nodes).map Node.relation = nodes.map Node.relation := by
  apply List.ext_getElem?
  intro place
  simp [withBlocks, Function.comp_def]

@[simp]
theorem map_relation_withOutputs (placeOf : Location → Option Nat) (index : Nat)
    (outputs : List (String × FieldRef)) (nodes : List Node) :
    (withOutputs placeOf index outputs nodes).map Node.relation = nodes.map Node.relation := by
  apply List.ext_getElem?
  intro place
  simp [withOutputs, Function.comp_def]

theorem withBlocks_nil (placeOf : Location → Option Nat) (nodes : List Node) :
    withBlocks placeOf [] nodes = nodes := by
  apply List.ext_getElem?
  intro place
  simp [withBlocks, predicatesAt, linksAt]

theorem predicatesAt_cons (placeOf : Location → Option Nat) (place : Nat) (block : Block)
    (blocks : List Block) :
    predicatesAt placeOf place (block :: blocks) =
      predicatesAt placeOf place [block] ++ predicatesAt placeOf place blocks := by
  simp only [predicatesAt, ← List.filterMap_append, List.singleton_append]

theorem withBlocks_cons (placeOf : Location → Option Nat) (block : Block) (blocks : List Block)
    (nodes : List Node) :
    withBlocks placeOf (block :: blocks) nodes =
      withBlocks placeOf blocks (withBlocks placeOf [block] nodes) := by
  apply List.ext_getElem?
  intro place
  simp only [withBlocks, List.getElem?_mapIdx, Option.map_map, Function.comp_def]
  have hlinks : linksAt placeOf place (block :: blocks) =
      linksAt placeOf place [block] ++ linksAt placeOf place blocks := by
    simp only [linksAt, ← List.filterMap_append, List.singleton_append]
  simp only [predicatesAt_cons placeOf place block blocks, hlinks, List.append_assoc]

theorem withOutputs_nil (placeOf : Location → Option Nat) (index : Nat) (nodes : List Node) :
    withOutputs placeOf index [] nodes = nodes := by
  apply List.ext_getElem?
  intro place
  simp [withOutputs, outputsAt]

theorem withOutputs_cons (placeOf : Location → Option Nat) (index : Nat)
    (output : String × FieldRef) (outputs : List (String × FieldRef)) (nodes : List Node) :
    withOutputs placeOf index (output :: outputs) nodes =
      withOutputs placeOf (index + 1) outputs (withOutputs placeOf index [output] nodes) := by
  apply List.ext_getElem?
  intro place
  simp only [withOutputs, List.getElem?_mapIdx, Option.map_map, Function.comp_def]
  have houtputs : outputsAt placeOf place index (output :: outputs) =
      outputsAt placeOf place index [output] ++ outputsAt placeOf place (index + 1) outputs := by
    simp only [outputsAt, List.zipIdx_cons, List.zipIdx_nil, ← List.filterMap_append,
      List.singleton_append]
  simp only [houtputs, List.append_assoc]

/-- Changing the node at one place is changing each node by what its own place says. -/
theorem modify_eq_mapIdx {nodes : List Node} {place : Nat} {change : Node → Node}
    {changeAt : Nat → Node → Node} (hhere : ∀ node, changeAt place node = change node)
    (helse : ∀ other node, other ≠ place → changeAt other node = node) :
    nodes.modify place change = nodes.mapIdx changeAt := by
  apply List.ext_getElem?
  intro other
  rw [List.getElem?_modify, List.getElem?_mapIdx]
  cases nodes[other]? with
  | none => rfl
  | some node =>
      by_cases hother : place = other
      · subst hother
        simp [hhere]
      · simp [hother, helse other node (Ne.symm hother)]

/-- A filter is attached to the node of its location, if that and the tagged one exist. -/
theorem attachBlock_predicate_eq_ok_iff {nodes nodes' : List Node} {predicate : Predicate} :
    QueryTree.attachBlock nodes (.predicate predicate) = .ok nodes' ↔
      Attachable (placeAmong (nodes.map Node.relation)) (.predicate predicate) ∧
        nodes' =
          withBlocks (placeAmong (nodes.map Node.relation)) [.predicate predicate] nodes := by
  let placeOf := placeAmong (nodes.map Node.relation)
  have hmodify : ∀ place, placeOf predicate.site.location = some place →
      ∀ tagNode, (predicate.tag.bind fun tag => placeOf tag.location) = tagNode →
      nodes.modify place (Node.addPredicate ⟨predicate, tagNode⟩) =
        withBlocks placeOf [.predicate predicate] nodes := by
    intro place hplace tagNode htagNode
    apply modify_eq_mapIdx
    · intro node
      simp [predicatesAt, linksAt, hplace, Node.addPredicate, htagNode]
    · intro other node hother
      simp [predicatesAt, linksAt, hplace, Ne.symm hother]
  simp only [QueryTree.attachBlock, bind_eq_ok_iff, placeOf_eq_ok_iff, Attachable,
    Option.isSome_iff_exists]
  cases htag : predicate.tag with
  | none =>
      simp only [bind_eq_ok_iff, pure_eq_ok_iff]
      constructor
      · rintro ⟨place, hplace, _, rfl, rfl⟩
        exact ⟨⟨⟨place, hplace⟩, by simp⟩, hmodify place hplace none (by simp [htag])⟩
      · rintro ⟨⟨⟨place, hplace⟩, -⟩, rfl⟩
        exact ⟨place, hplace, none, rfl, hmodify place hplace none (by simp [htag])⟩
  | some tag =>
      simp only [bind_eq_ok_iff, map_eq_ok_iff, pure_eq_ok_iff, placeOf_eq_ok_iff]
      constructor
      · rintro ⟨place, hplace, _, ⟨tagged, htagged, rfl⟩, rfl⟩
        exact ⟨⟨⟨place, hplace⟩, by simp [htagged]⟩,
          hmodify place hplace (some tagged) (by simp [placeOf, htag, htagged])⟩
      · rintro ⟨⟨⟨place, hplace⟩, hsome⟩, rfl⟩
        obtain ⟨tagged, htagged⟩ := hsome tag rfl
        exact ⟨place, hplace, some tagged, ⟨tagged, htagged, rfl⟩,
          hmodify place hplace (some tagged) (by simp [placeOf, htag, htagged])⟩

/-- A key is attached to the node of its location, if that and the recursion exist. -/
theorem attachBlock_link_eq_ok_iff {nodes nodes' : List Node} {link : Link} :
    QueryTree.attachBlock nodes (.link link) = .ok nodes' ↔
      Attachable (placeAmong (nodes.map Node.relation)) (.link link) ∧
        nodes' = withBlocks (placeAmong (nodes.map Node.relation)) [.link link] nodes := by
  have hmodify : ∀ owner, placeAmong (nodes.map Node.relation) link.site.location = some owner →
      ∀ target, placeAmong (nodes.map Node.relation) link.target = some target →
      nodes.modify owner (Node.addLink target link) =
        withBlocks (placeAmong (nodes.map Node.relation)) [.link link] nodes := by
    intro owner howner target htarget
    apply modify_eq_mapIdx
    · intro node
      simp [predicatesAt, linksAt, howner, htarget, Node.addLink]
    · intro other node hother
      simp [predicatesAt, linksAt, howner, Ne.symm hother]
  simp only [QueryTree.attachBlock, bind_eq_ok_iff, placeOf_eq_ok_iff, pure_eq_ok_iff, Attachable,
    Option.isSome_iff_exists]
  constructor
  · rintro ⟨owner, howner, target, htarget, rfl⟩
    exact ⟨⟨⟨owner, howner⟩, target, htarget⟩, hmodify owner howner target htarget⟩
  · rintro ⟨⟨⟨owner, howner⟩, target, htarget⟩, rfl⟩
    exact ⟨owner, howner, target, htarget, hmodify owner howner target htarget⟩

/-- Vertices and outputs of the stream leave the nodes alone. -/
theorem withBlocks_of_inert (placeOf : Location → Option Nat) {block : Block} (nodes : List Node)
    (hpredicate : ∀ p, block ≠ .predicate p) (hlink : ∀ l, block ≠ .link l) :
    withBlocks placeOf [block] nodes = nodes := by
  apply List.ext_getElem?
  intro place
  cases block with
  | predicate p => exact absurd rfl (hpredicate p)
  | link l => exact absurd rfl (hlink l)
  | relation r => simp [withBlocks, predicatesAt, linksAt]
  | selection s => simp [withBlocks, predicatesAt, linksAt]

theorem attachBlock_eq_ok_iff {nodes nodes' : List Node} {block : Block} :
    QueryTree.attachBlock nodes block = .ok nodes' ↔
      Attachable (placeAmong (nodes.map Node.relation)) block ∧
        nodes' = withBlocks (placeAmong (nodes.map Node.relation)) [block] nodes := by
  cases block with
  | predicate p => exact attachBlock_predicate_eq_ok_iff
  | link l => exact attachBlock_link_eq_ok_iff
  | relation r =>
      rw [withBlocks_of_inert _ nodes (by simp) (by simp)]
      simp [QueryTree.attachBlock, Attachable, eq_comm]
  | selection s =>
      rw [withBlocks_of_inert _ nodes (by simp) (by simp)]
      simp [QueryTree.attachBlock, Attachable, eq_comm]

/-- Filters and keys are attached exactly if the nodes that they name exist. -/
theorem foldlM_attachBlock_eq_ok_iff {blocks : List Block} {nodes nodes' : List Node} :
    blocks.foldlM QueryTree.attachBlock nodes = .ok nodes' ↔
      (∀ block ∈ blocks, Attachable (placeAmong (nodes.map Node.relation)) block) ∧
        nodes' = withBlocks (placeAmong (nodes.map Node.relation)) blocks nodes := by
  induction blocks generalizing nodes with
  | nil =>
      rw [List.foldlM_nil, pure_eq_ok_iff, withBlocks_nil]
      exact ⟨fun h => ⟨by simp, h.symm⟩, fun h => h.2.symm⟩
  | cons block blocks ih =>
      rw [List.foldlM_cons, bind_eq_ok_iff, withBlocks_cons]
      simp only [attachBlock_eq_ok_iff, ih, List.forall_mem_cons]
      constructor
      · rintro ⟨_, ⟨hblock, rfl⟩, hblocks, rfl⟩
        rw [map_relation_withBlocks] at hblocks ⊢
        exact ⟨⟨hblock, hblocks⟩, rfl⟩
      · rintro ⟨⟨hblock, hblocks⟩, rfl⟩
        refine ⟨_, ⟨hblock, rfl⟩, ?_⟩
        rw [map_relation_withBlocks]
        exact ⟨hblocks, rfl⟩

/-- Outputs are attached exactly if the nodes of their sources exist. -/
theorem attachOutputs_eq_ok_iff {outputs : List (String × FieldRef)} {index : Nat}
    {nodes nodes' : List Node} :
    QueryTree.attachOutputs nodes index outputs = .ok nodes' ↔
      (∀ output ∈ outputs, (placeAmong (nodes.map Node.relation) output.2.location).isSome) ∧
        nodes' = withOutputs (placeAmong (nodes.map Node.relation)) index outputs nodes := by
  induction outputs generalizing nodes index with
  | nil =>
      rw [QueryTree.attachOutputs, withOutputs_nil, Except.ok.injEq]
      exact ⟨fun h => ⟨by simp, h.symm⟩, fun h => h.2.symm⟩
  | cons output outputs ih =>
      obtain ⟨aliasName, source⟩ := output
      have hmodify : ∀ place, placeAmong (nodes.map Node.relation) source.location = some place →
          nodes.modify place (Node.addOutput ⟨source.field, aliasName, index⟩) =
            withOutputs (placeAmong (nodes.map Node.relation)) index [(aliasName, source)]
              nodes := by
        intro place hplace
        apply modify_eq_mapIdx
        · intro node
          simp [outputsAt, hplace, Node.addOutput]
        · intro other node hother
          simp [outputsAt, hplace, Ne.symm hother]
      rw [QueryTree.attachOutputs, bind_eq_ok_iff, withOutputs_cons, List.forall_mem_cons]
      simp only [placeOf_eq_ok_iff, ih]
      constructor
      · rintro ⟨place, hplace, houtputs, rfl⟩
        rw [hmodify place hplace, map_relation_withOutputs] at houtputs ⊢
        exact ⟨⟨by simp [hplace], houtputs⟩, rfl⟩
      · rintro ⟨⟨hsome, houtputs⟩, rfl⟩
        obtain ⟨place, hplace⟩ := Option.isSome_iff_exists.1 hsome
        refine ⟨place, hplace, ?_⟩
        rw [hmodify place hplace, map_relation_withOutputs]
        exact ⟨houtputs, rfl⟩

theorem checkListed_eq_ok_iff {outputs : List (String × FieldRef)} {block : Block} :
    QueryTree.checkListed outputs block = .ok () ↔
      ∀ selection, block = .selection selection → QueryTree.isListed outputs selection := by
  cases block with
  | selection s => by_cases h : QueryTree.isListed outputs s <;> simp [QueryTree.checkListed, h]
  | relation r => simp [QueryTree.checkListed]
  | predicate p => simp [QueryTree.checkListed]
  | link l => simp [QueryTree.checkListed]

/-- The nodes of a tree, with all that is attached to them. -/
theorem withOutputs_withBlocks_bareNodes (read : Blocks) :
    withOutputs read.place? 0 read.outputs
        (withBlocks read.place? read.blocks (bareNodes read.relations)) =
      read.tree.nodes := by
  apply List.ext_getElem?
  intro place
  simp only [withOutputs, withBlocks, bareNodes, Blocks.tree, List.getElem?_mapIdx,
    Option.map_map]
  rfl

/-- Assembly succeeds exactly on the blocks that form a tree, and gives that tree. -/
theorem ofBlocks_eq_ok_iff {read : Blocks} {tree : QueryTree} :
    QueryTree.ofBlocks read = .ok tree ↔ Assemblable read ∧ tree = read.tree := by
  unfold QueryTree.ofBlocks
  simp only [throw_bind]
  rw [bind_eq_ok_iff, ← Blocks.relations]
  simp only [foldlM_addRelation_eq_ok_iff]
  constructor
  · rintro ⟨_, ⟨hplanted, rfl⟩, hrest⟩
    split at hrest
    · simp [throw_eq_ok_iff] at hrest
    next hnonempty =>
    obtain ⟨_, hblocks, hrest⟩ := bind_eq_ok_iff.1 hrest
    obtain ⟨_, houtputs, hrest⟩ := bind_eq_ok_iff.1 hrest
    obtain ⟨_, hlisted, hrest⟩ := bind_eq_ok_iff.1 hrest
    obtain ⟨hattachable, rfl⟩ := foldlM_attachBlock_eq_ok_iff.1 hblocks
    obtain ⟨hsourced, rfl⟩ := attachOutputs_eq_ok_iff.1 houtputs
    rw [forM_eq_ok_iff] at hlisted
    simp only [map_relation_withBlocks, map_relation_bareNodes] at hattachable hsourced hrest
    refine ⟨⟨?_, hplanted, hattachable, hsourced, ?_⟩, ?_⟩
    · intro hempty
      exact hnonempty (by simp [hempty, bareNodes])
    · intro selection hmem
      exact checkListed_eq_ok_iff.1 (hlisted _ hmem) selection rfl
    · rw [← pure_eq_ok_iff.1 hrest]
      exact congrArg (QueryTree.mk · _) (withOutputs_withBlocks_bareNodes read)
  · rintro ⟨h, rfl⟩
    have hnonempty : ¬ (bareNodes read.relations).isEmpty := by
      simpa [bareNodes] using h.nonempty
    refine ⟨_, ⟨h.planted, rfl⟩, ?_⟩
    rw [if_neg hnonempty]
    have hblocks : read.blocks.foldlM QueryTree.attachBlock (bareNodes read.relations) =
        .ok (withBlocks read.place? read.blocks (bareNodes read.relations)) := by
      rw [foldlM_attachBlock_eq_ok_iff, map_relation_bareNodes]
      exact ⟨h.attachable, rfl⟩
    have houtputs : QueryTree.attachOutputs
        (withBlocks read.place? read.blocks (bareNodes read.relations)) 0 read.outputs =
          .ok read.tree.nodes := by
      rw [attachOutputs_eq_ok_iff, map_relation_withBlocks, map_relation_bareNodes]
      exact ⟨h.sourced, (withOutputs_withBlocks_bareNodes read).symm⟩
    have hlisted : read.blocks.forM (QueryTree.checkListed read.outputs) = .ok () := by
      rw [forM_eq_ok_iff]
      intro block hblock
      rw [checkListed_eq_ok_iff]
      rintro selection rfl
      exact h.listed selection hblock
    rw [hblocks, ok_bind, houtputs, ok_bind, hlisted, ok_bind]
    rfl

namespace Blocks

/-- A node gives out what the query takes from its location, in the place of the query. -/
theorem mem_outputs_nodeAt_iff {read : Blocks} {place : Nat} {relation : Relation}
    {output : NodeOutput} :
    output ∈ (read.nodeAt place relation).outputs ↔
      ∃ source, read.outputs[output.index]? = some (output.aliasName, source) ∧
        source.field = output.field ∧ read.place? source.location = some place := by
  obtain ⟨field, aliasName, index⟩ := output
  simp only [nodeAt, outputsAt, List.mem_filterMap, Prod.exists, List.mem_zipIdx_iff_getElem?,
    Option.ite_none_right_eq_some, Option.some.injEq, NodeOutput.mk.injEq]
  constructor
  · rintro ⟨_, source, _, hget, hplace, rfl, rfl, rfl⟩
    exact ⟨source, hget, rfl, hplace⟩
  · rintro ⟨source, hget, rfl, hplace⟩
    exact ⟨aliasName, source, index, hget, hplace, rfl, rfl, rfl⟩

/-- A filter of a node belongs to its location and knows the node of its tag. -/
theorem mem_predicates_nodeAt {read : Blocks} {place : Nat} {relation : Relation}
    {p : NodePredicate} (h : p ∈ (read.nodeAt place relation).predicates) :
    .predicate p.predicate ∈ read.blocks ∧ read.place? p.predicate.site.location = some place ∧
      p.tagNode = p.predicate.tag.bind fun tag => read.place? tag.location := by
  obtain ⟨block, hblock, hfound⟩ := List.mem_filterMap.1 h
  cases block with
  | predicate predicate =>
      rw [Option.ite_none_right_eq_some, Option.some.injEq] at hfound
      obtain ⟨hplace, rfl⟩ := hfound
      exact ⟨hblock, hplace, rfl⟩
  | relation | selection | link => exact absurd hfound (by simp)

end Blocks

end TraversalSql
