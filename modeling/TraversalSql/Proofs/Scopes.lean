import TraversalSql.QueryTree.Scope
import TraversalSql.Proofs.Assembly
import TraversalSql.Proofs.OrderedMaps

/-!
The cut of a query tree into scopes.  The nodes of a tree are arranged so that each one comes after
the node it hangs off; on such nodes the scope of the root holds no node twice, and it holds every
node unless a fold or a recursion hangs below a fold.
-/

namespace TraversalSql

mutual

/-- The vertices of a group, each before those below it and these before those beside it. -/
def Group.nodes : Group → List Node
  | .mk node children => node :: Group.nodesOfAll children

def Group.nodesOfAll : List Group → List Node
  | [] => []
  | group :: groups => group.nodes ++ Group.nodesOfAll groups

end

theorem Group.nodesOfAll_eq_flatMap (groups : List Group) :
    Group.nodesOfAll groups = groups.flatMap Group.nodes := by
  induction groups with
  | nil => rfl
  | cons group groups ih => rw [Group.nodesOfAll, ih, List.flatMap_cons]

/-- A vertex of a group hangs directly below another one. -/
inductive Group.Hangs : Group → Node → Node → Prop
  | here {node : Node} {children : List Group} {child : Group} (hchild : child ∈ children) :
      Hangs (.mk node children) node child.node
  | inside {node above below : Node} {children : List Group} {child : Group}
      (hchild : child ∈ children) (hbelow : Hangs child above below) :
      Hangs (.mk node children) above below

theorem Group.Hangs.mem_nodes {group : Group} {above below : Node} (h : group.Hangs above below) :
    above ∈ group.nodes ∧ below ∈ group.nodes := by
  induction h with
  | @here node children child hchild =>
      obtain ⟨top, others⟩ := child
      rw [Group.nodes, Group.nodesOfAll_eq_flatMap]
      exact ⟨List.mem_cons_self,
        List.mem_cons_of_mem _ (List.mem_flatMap.2 ⟨_, hchild, List.mem_cons_self⟩)⟩
  | inside hchild _ ih =>
      rw [Group.nodes, Group.nodesOfAll_eq_flatMap]
      exact ⟨List.mem_cons_of_mem _ (List.mem_flatMap.2 ⟨_, hchild, ih.1⟩),
        List.mem_cons_of_mem _ (List.mem_flatMap.2 ⟨_, hchild, ih.2⟩)⟩

mutual

/-- What holds of the top vertex of a group, and goes from a vertex to those that hang below it,
holds of all its vertices. -/
theorem Group.forall_nodes (group : Group) {P : Node → Prop} (htop : P group.node)
    (hstep : ∀ above ∈ group.nodes, ∀ below, group.Hangs above below → P above → P below) :
    ∀ node ∈ group.nodes, P node := by
  match group with
  | .mk top children =>
      intro node hnode
      rw [Group.nodes, List.mem_cons] at hnode
      rcases hnode with rfl | hnode
      · exact htop
      · refine Group.forall_nodesOfAll children ?_ ?_ node hnode
        · intro child hchild
          exact hstep top List.mem_cons_self child.node (.here hchild) htop
        · intro child hchild above habove below hhangs
          refine hstep above (List.mem_cons_of_mem _ ?_) below (.inside hchild hhangs)
          rw [Group.nodesOfAll_eq_flatMap]
          exact List.mem_flatMap.2 ⟨child, hchild, habove⟩

theorem Group.forall_nodesOfAll (groups : List Group) {P : Node → Prop}
    (htops : ∀ group ∈ groups, P group.node)
    (hstep : ∀ group ∈ groups, ∀ above ∈ group.nodes, ∀ below, group.Hangs above below →
      P above → P below) :
    ∀ node ∈ Group.nodesOfAll groups, P node := by
  match groups with
  | [] => exact fun node hnode => absurd hnode List.not_mem_nil
  | group :: groups =>
      obtain ⟨htop, htops⟩ := List.forall_mem_cons.1 htops
      obtain ⟨hfirst, hrest⟩ := List.forall_mem_cons.1 hstep
      intro node hnode
      rcases List.mem_append.1 hnode with hnode | hnode
      · exact Group.forall_nodes group htop hfirst node hnode
      · exact Group.forall_nodesOfAll groups htops hrest node hnode

end

mutual

/-- The vertices of a scope: of its group, of its folds, and of the scopes of its recursions. -/
def Scope.nodes : Scope → List Node
  | .mk group folds recursions =>
      group.nodes ++ folds.flatMap Group.nodes ++ Scope.nodesOfAll recursions

def Scope.nodesOfAll : List Scope → List Node
  | [] => []
  | scope :: scopes => scope.nodes ++ Scope.nodesOfAll scopes

end

theorem Scope.nodesOfAll_eq_flatMap (scopes : List Scope) :
    Scope.nodesOfAll scopes = scopes.flatMap Scope.nodes := by
  induction scopes with
  | nil => rfl
  | cons scope scopes ih => rw [Scope.nodesOfAll, ih, List.flatMap_cons]

namespace Node

/-- Whether a node hangs off this one and is reached in a given way. -/
def isAbove (node : Node) (way : RelationKind → Bool) (below : Node) : Bool :=
  below.parent == some node.id && way below.relation.kind

/-- The nodes that a node lists below it are those among later ones that hang off it. -/
structure Owns (node : Node) (later : List Node) : Prop where
  children : node.children = (later.filter (node.isAbove RelationKind.isTraverse)).map Node.id
  folds : node.folds = (later.filter (node.isAbove RelationKind.isFold)).map Node.id
  recursions :
    node.recursions = (later.filter (node.isAbove RelationKind.isRecursion)).map Node.id

end Node

/-- Nodes of which each one comes after the node it hangs off and lists those that hang off it. -/
def Arranged : List Node → Prop
  | [] => True
  | node :: later =>
      node.Owns later ∧ (∀ parent ∈ node.parent, parent ∉ (node :: later).map Node.id) ∧
        node.id ∉ later.map Node.id ∧ Arranged later

namespace QueryTree

theorem map_node_scopesOf (nodes : List Node) :
    (scopesOf nodes).map (fun entry => entry.2.node) = nodes := by
  induction nodes with
  | nil => rfl
  | cons node later ih =>
      rw [scopesOf, List.map_cons, ih]
      rfl

theorem id_of_mem_scopesOf {nodes : List Node} {entry : Nat × Scope}
    (h : entry ∈ scopesOf nodes) : entry.1 = entry.2.node.id := by
  induction nodes with
  | nil => exact absurd h List.not_mem_nil
  | cons node later ih =>
      rcases List.mem_cons.1 h with rfl | h
      · rfl
      · exact ih h

theorem map_fst_scopesOf (nodes : List Node) :
    (scopesOf nodes).map Prod.fst = nodes.map Node.id := by
  nth_rewrite 2 [← map_node_scopesOf nodes]
  rw [List.map_map]
  exact List.map_congr_left fun entry hentry => id_of_mem_scopesOf hentry

end QueryTree

namespace Arranged

variable {node : Node} {later : List Node}

theorem distinct {nodes : List Node} (h : Arranged nodes) : (nodes.map Node.id).Nodup := by
  induction nodes with
  | nil => simp
  | cons node later ih =>
      rw [List.map_cons, List.nodup_cons]
      exact ⟨h.2.2.1, ih h.2.2.2⟩

end Arranged

namespace QueryTree

/-- Among scopes, those whose nodes hang off a given node in a given way. -/
def hanging (node : Node) (way : RelationKind → Bool) (entries : List (Nat × Scope)) :
    List Scope :=
  (entries.map Prod.snd).filter fun scope => node.isAbove way scope.node

theorem pick_eq_hanging {later : List Node} (hdistinct : (later.map Node.id).Nodup) (node : Node)
    (way : RelationKind → Bool) :
    ((later.filter (node.isAbove way)).map Node.id).filterMap
        (fun id => (scopesOf later).lookup id) =
      hanging node way (scopesOf later) := by
  have hfilter : (later.filter (node.isAbove way)).map Node.id =
      ((scopesOf later).filter fun entry => node.isAbove way entry.2.node).map Prod.fst := by
    nth_rewrite 1 [← map_node_scopesOf later]
    rw [List.filter_map, List.map_map]
    apply List.map_congr_left
    intro entry hentry
    exact (id_of_mem_scopesOf (List.mem_of_mem_filter hentry)).symm
  rw [hfilter, List.filterMap_map, hanging, List.filter_map, ← List.filterMap_eq_map]
  apply List.filterMap_congr
  intro entry hentry
  apply lookup_eq_some_of_mem
  · rw [map_fst_scopesOf]
    exact hdistinct
  · exact List.mem_of_mem_filter hentry

/-- The scope of a node is made of the scopes that hang off it. -/
theorem scopesOf_cons {node : Node} {later : List Node} (h : Arranged (node :: later)) :
    scopesOf (node :: later) =
      (node.id, .ofNode node (hanging node RelationKind.isTraverse (scopesOf later))
        (hanging node RelationKind.isFold (scopesOf later))
        (hanging node RelationKind.isRecursion (scopesOf later))) :: scopesOf later := by
  obtain ⟨howns, -, -, hlater⟩ := h
  simp only [scopesOf, howns.children, howns.folds, howns.recursions,
    pick_eq_hanging hlater.distinct]

end QueryTree

namespace Scope

theorem nodes_eq (scope : Scope) :
    scope.nodes = scope.group.nodes ++ scope.folds.flatMap Group.nodes
      ++ scope.recursions.flatMap Scope.nodes := by
  obtain ⟨group, folds, recursions⟩ := scope
  rw [Scope.nodes, nodesOfAll_eq_flatMap]
  rfl

/-- The vertices of the scope of a node are the node and those of the scopes it is made of, but of
a fold only those of its group. -/
theorem nodes_ofNode_perm (node : Node) (joined folded recursive : List Scope) :
    (ofNode node joined folded recursive).nodes.Perm
      (node :: (joined.flatMap nodes ++ folded.flatMap (fun scope => scope.group.nodes)
        ++ recursive.flatMap nodes)) := by
  have hjoined : (joined.flatMap nodes).Perm
      (joined.flatMap (fun scope => scope.group.nodes)
        ++ joined.flatMap (fun scope => scope.folds.flatMap Group.nodes)
        ++ joined.flatMap (fun scope => scope.recursions.flatMap nodes)) := by
    have hnodes : joined.flatMap nodes = joined.flatMap (fun scope =>
        scope.group.nodes ++ scope.folds.flatMap Group.nodes
          ++ scope.recursions.flatMap nodes) :=
      List.flatMap_congr fun scope _ => nodes_eq scope
    rw [hnodes]
    exact ((List.flatMap_append_perm _ _ _).append_right _ |>.trans
      (List.flatMap_append_perm _ _ _)).symm
  simp only [ofNode, nodes, Group.nodes, Group.nodesOfAll_eq_flatMap, nodesOfAll_eq_flatMap,
    List.flatMap_append, List.flatMap_map, List.flatMap_assoc, List.cons_append]
  apply List.Perm.cons
  rw [List.perm_iff_count]
  intro other
  have hcount := hjoined.count_eq other
  simp only [List.count_append] at hcount ⊢
  omega

end Scope

namespace QueryTree

private theorem subperm_filter_append {α : Type} {p q r : α → Bool} (hp : ∀ a, p a → r a)
    (hq : ∀ a, q a → r a) (hdisjoint : ∀ a, p a → ¬ q a) (l : List α) :
    (l.filter p ++ l.filter q).Subperm (l.filter r) := by
  induction l with
  | nil => simp
  | cons a l ih =>
      by_cases hpa : p a
      · rw [List.filter_cons_of_pos hpa, List.filter_cons_of_neg (hdisjoint a hpa),
          List.filter_cons_of_pos (hp a hpa)]
        exact (List.subperm_cons a).2 ih
      · by_cases hqa : q a
        · rw [List.filter_cons_of_neg hpa, List.filter_cons_of_pos hqa,
            List.filter_cons_of_pos (hq a hqa)]
          exact List.perm_middle.subperm.trans ((List.subperm_cons a).2 ih)
        · rw [List.filter_cons_of_neg hpa, List.filter_cons_of_neg hqa]
          exact ih.trans ((List.sublist_cons_self a l).filter r).subperm

private theorem subperm_flatMap {α β : Type} {first second : List α}
    (h : first.Subperm second) (f : α → List β) :
    (first.flatMap f).Subperm (second.flatMap f) := by
  obtain ⟨l, hperm, hsublist⟩ := h
  exact (hperm.flatMap_right f).symm.subperm.trans (hsublist.flatMap f).subperm

/-- The scopes that hang off a node are different ones in each way. -/
theorem hanging_subperm (node : Node) (entries : List (Nat × Scope)) :
    (hanging node RelationKind.isTraverse entries ++ hanging node RelationKind.isFold entries
        ++ hanging node RelationKind.isRecursion entries).Subperm
      ((entries.map Prod.snd).filter fun scope => scope.node.parent == some node.id) := by
  have hfirst : (hanging node RelationKind.isTraverse entries
      ++ hanging node RelationKind.isFold entries).Subperm
        (hanging node (fun kind => !kind.isRecursion) entries) := by
    apply subperm_filter_append
    all_goals
      intro scope
      cases hkind : scope.node.relation.kind <;>
        simp [Node.isAbove, hkind, RelationKind.isTraverse, RelationKind.isFold,
          RelationKind.isRecursion]
  refine (hfirst.append (List.Subperm.refl _)).trans ?_
  apply subperm_filter_append
  all_goals
    intro scope
    cases hkind : scope.node.relation.kind <;>
      simp +contextual [Node.isAbove, hkind, RelationKind.isRecursion]

/-- Whether a node hangs off none of some nodes. -/
def isOutside (nodes : List Node) (node : Node) : Bool :=
  node.parent.all fun parent => parent ∉ nodes.map Node.id

/-- The scopes of nodes that hang off none of the others hold no node twice. -/
theorem nodes_scopesOf_subperm {nodes : List Node} (h : Arranged nodes) :
    ((((scopesOf nodes).map Prod.snd).filter fun scope => isOutside nodes scope.node).flatMap
      Scope.nodes).Subperm nodes := by
  induction nodes with
  | nil => exact List.nil_subperm
  | cons node later ih =>
      have hlater := ih h.2.2.2
      have hcons := scopesOf_cons h
      obtain ⟨-, hparent, hid, -⟩ := h
      let below := (scopesOf later).map Prod.snd
      let joined := hanging node RelationKind.isTraverse (scopesOf later)
      let folded := hanging node RelationKind.isFold (scopesOf later)
      let recursive := hanging node RelationKind.isRecursion (scopesOf later)
      let scope := Scope.ofNode node joined folded recursive
      let others := below.filter fun scope => isOutside (node :: later) scope.node
      have houtside : isOutside (node :: later) node := by
        simpa [isOutside, Option.all_eq_true] using hparent
      have hfilter : ((scopesOf (node :: later)).map Prod.snd).filter
          (fun scope => isOutside (node :: later) scope.node) = scope :: others := by
        rw [hcons]
        exact List.filter_cons_of_pos houtside
      -- What hangs off the node, and what hangs off an earlier one, hangs off none of the later.
      have hsplit : (joined ++ folded ++ recursive ++ others).Subperm
          (below.filter fun scope => isOutside later scope.node) := by
        refine ((hanging_subperm node (scopesOf later)).append (List.Subperm.refl _)).trans ?_
        apply subperm_filter_append
        · intro scope hscope
          simpa [isOutside, (beq_iff_eq.1 hscope)] using hid
        · intro scope hscope
          simp only [isOutside, Option.all_eq_true, decide_eq_true_eq, List.map_cons,
            List.mem_cons, not_or] at hscope ⊢
          exact fun parent hmem => (hscope parent hmem).2
        · intro scope hscope
          simp [isOutside, (beq_iff_eq.1 hscope)]
      have hfolded : (folded.flatMap fun scope => scope.group.nodes).Sublist
          (folded.flatMap Scope.nodes) := by
        apply List.Sublist.flatMap_right
        intro scope _
        rw [Scope.nodes_eq, List.append_assoc]
        exact List.sublist_append_left _ _
      have hscope : scope.nodes.Subperm
          (node :: (joined ++ folded ++ recursive).flatMap Scope.nodes) := by
        refine (Scope.nodes_ofNode_perm node joined folded recursive).subperm.trans ?_
        rw [List.subperm_cons, List.flatMap_append, List.flatMap_append]
        exact (((List.Sublist.refl _).append hfolded).append (List.Sublist.refl _)).subperm
      rw [hfilter, List.flatMap_cons]
      refine (hscope.append (List.Subperm.refl _)).trans ?_
      rw [List.cons_append, ← List.flatMap_append, List.subperm_cons]
      exact (subperm_flatMap hsplit Scope.nodes).trans hlater

/-- The scopes that start at nodes. -/
def scopes (nodes : List Node) : List Scope := (scopesOf nodes).map Prod.snd

theorem exists_scope_of_mem {nodes : List Node} {node : Node} (h : node ∈ nodes) :
    ∃ scope ∈ scopes nodes, scope.node = node := by
  rw [← map_node_scopesOf nodes] at h
  obtain ⟨entry, hentry, rfl⟩ := List.mem_map.1 h
  exact ⟨entry.2, List.mem_map_of_mem hentry, rfl⟩

theorem scopes_cons {node : Node} {later : List Node} (h : Arranged (node :: later)) :
    scopes (node :: later) =
      .ofNode node (hanging node RelationKind.isTraverse (scopesOf later))
        (hanging node RelationKind.isFold (scopesOf later))
        (hanging node RelationKind.isRecursion (scopesOf later)) :: scopes later := by
  rw [scopes, scopesOf_cons h]
  rfl

theorem mem_hanging_iff {node : Node} {way : RelationKind → Bool} {later : List Node}
    {scope : Scope} :
    scope ∈ hanging node way (scopesOf later) ↔
      scope ∈ scopes later ∧ scope.node.parent = some node.id ∧ way scope.node.relation.kind := by
  simp [hanging, scopes, Node.isAbove]

end QueryTree

namespace Scope

theorem node_mem_nodes_group (scope : Scope) : scope.node ∈ scope.group.nodes := by
  obtain ⟨⟨node, children⟩, folds, recursions⟩ := scope
  exact List.mem_cons_self

theorem nodes_group_ofNode (node : Node) (joined folded recursive : List Scope) :
    (ofNode node joined folded recursive).group.nodes =
      node :: joined.flatMap fun scope => scope.group.nodes := by
  rw [ofNode, group, Group.nodes, Group.nodesOfAll_eq_flatMap, List.flatMap_map]

/-- A scope that is cut from arranged nodes: its group holds whatever is reached by plain crossings,
and its folds and recursions are those that hang off the vertices of its group. -/
structure CutFrom (scope : Scope) (nodes : List Node) : Prop where
  mem : ∀ node ∈ scope.group.nodes, node ∈ nodes
  hangs : ∀ above below, scope.group.Hangs above below →
    below.parent = some above.id ∧ below.relation.kind.isTraverse
  folds : ∀ group ∈ scope.folds, group.node.relation.kind.isFold ∧
    (∃ fold ∈ QueryTree.scopes nodes, fold.group = group) ∧
    ∃ owner ∈ scope.group.nodes, group.node.parent = some owner.id
  recursions : ∀ recursion ∈ scope.recursions, recursion.node.relation.kind.isRecursion ∧
    recursion ∈ QueryTree.scopes nodes ∧
    ∃ owner ∈ scope.group.nodes, recursion.node.parent = some owner.id
  closed : ∀ node ∈ nodes, ∀ owner ∈ scope.group.nodes, node.parent = some owner.id →
    (node.relation.kind.isTraverse → node ∈ scope.group.nodes) ∧
    (node.relation.kind.isFold → ∃ group ∈ scope.folds, group.node = node) ∧
    (node.relation.kind.isRecursion → ∃ recursion ∈ scope.recursions, recursion.node = node)

/-- A scope stays cut from nodes when another one is put before them. -/
theorem CutFrom.cons {scope : Scope} {node : Node} {later : List Node}
    (h : scope.CutFrom later) (harranged : Arranged (node :: later)) :
    scope.CutFrom (node :: later) where
  mem other hother := List.mem_cons_of_mem _ (h.mem other hother)
  hangs := h.hangs
  folds group hgroup := by
    obtain ⟨hkind, ⟨fold, hfold, hsame⟩, howner⟩ := h.folds group hgroup
    refine ⟨hkind, ⟨fold, ?_, hsame⟩, howner⟩
    rw [QueryTree.scopes_cons harranged]
    exact List.mem_cons_of_mem _ hfold
  recursions recursion hrecursion := by
    obtain ⟨hkind, hmem, howner⟩ := h.recursions recursion hrecursion
    refine ⟨hkind, ?_, howner⟩
    rw [QueryTree.scopes_cons harranged]
    exact List.mem_cons_of_mem _ hmem
  closed other hother owner howner hparent := by
    rcases List.mem_cons.1 hother with rfl | hother
    · have hnot := harranged.2.1 owner.id hparent
      exact absurd (List.mem_map_of_mem (List.mem_cons_of_mem _ (h.mem owner howner))) hnot
    · exact h.closed other hother owner howner hparent

/-- The scope of a node is cut from the node and those after it. -/
theorem cutFrom_ofNode {node : Node} {later : List Node} (harranged : Arranged (node :: later))
    (hbelow : ∀ scope ∈ QueryTree.scopes later, scope.CutFrom later) :
    (ofNode node (QueryTree.hanging node RelationKind.isTraverse (QueryTree.scopesOf later))
      (QueryTree.hanging node RelationKind.isFold (QueryTree.scopesOf later))
      (QueryTree.hanging node RelationKind.isRecursion (QueryTree.scopesOf later))).CutFrom
        (node :: later) where
  mem other hother := by
    rw [nodes_group_ofNode, List.mem_cons, List.mem_flatMap] at hother
    rcases hother with rfl | ⟨scope, hscope, hother⟩
    · exact List.mem_cons_self
    · have hscope := (QueryTree.mem_hanging_iff.1 hscope).1
      exact List.mem_cons_of_mem _ ((hbelow scope hscope).mem _ hother)
  hangs above below hhangs := by
    cases hhangs with
    | here hchild =>
        obtain ⟨scope, hscope, rfl⟩ := List.mem_map.1 hchild
        exact (QueryTree.mem_hanging_iff.1 hscope).2
    | inside hchild hinside =>
        obtain ⟨scope, hscope, rfl⟩ := List.mem_map.1 hchild
        exact (hbelow scope (QueryTree.mem_hanging_iff.1 hscope).1).hangs _ _ hinside
  folds group hgroup := by
    rw [QueryTree.scopes_cons harranged, nodes_group_ofNode]
    rcases List.mem_append.1 hgroup with hgroup | hgroup
    · obtain ⟨fold, hfold, rfl⟩ := List.mem_map.1 hgroup
      obtain ⟨hmem, hparent, hkind⟩ := QueryTree.mem_hanging_iff.1 hfold
      exact ⟨hkind, ⟨fold, List.mem_cons_of_mem _ hmem, rfl⟩, node, List.mem_cons_self, hparent⟩
    · obtain ⟨scope, hscope, hgroup⟩ := List.mem_flatMap.1 hgroup
      obtain ⟨hkind, ⟨fold, hfold, hsame⟩, owner, howner, hparent⟩ :=
        (hbelow scope (QueryTree.mem_hanging_iff.1 hscope).1).folds group hgroup
      exact ⟨hkind, ⟨fold, List.mem_cons_of_mem _ hfold, hsame⟩, owner,
        List.mem_cons_of_mem _ (List.mem_flatMap.2 ⟨scope, hscope, howner⟩), hparent⟩
  recursions recursion hrecursion := by
    rw [QueryTree.scopes_cons harranged, nodes_group_ofNode]
    rcases List.mem_append.1 hrecursion with hrecursion | hrecursion
    · obtain ⟨hmem, hparent, hkind⟩ := QueryTree.mem_hanging_iff.1 hrecursion
      exact ⟨hkind, List.mem_cons_of_mem _ hmem, node, List.mem_cons_self, hparent⟩
    · obtain ⟨scope, hscope, hrecursion⟩ := List.mem_flatMap.1 hrecursion
      obtain ⟨hkind, hmem, owner, howner, hparent⟩ :=
        (hbelow scope (QueryTree.mem_hanging_iff.1 hscope).1).recursions recursion hrecursion
      exact ⟨hkind, List.mem_cons_of_mem _ hmem, owner,
        List.mem_cons_of_mem _ (List.mem_flatMap.2 ⟨scope, hscope, howner⟩), hparent⟩
  closed other hother owner howner hparent := by
    obtain ⟨-, hearlier, -, -⟩ := harranged
    rw [nodes_group_ofNode, List.mem_cons, List.mem_flatMap] at howner ⊢
    -- The node itself hangs off none of these, so what hangs off them comes later.
    have hmem : other ∈ later := by
      rcases List.mem_cons.1 hother with rfl | hother
      · refine absurd ?_ (hearlier owner.id hparent)
        rcases howner with rfl | ⟨scope, hscope, howner⟩
        · exact List.mem_map_of_mem List.mem_cons_self
        · have hlater :=
            (hbelow scope (QueryTree.mem_hanging_iff.1 hscope).1).mem owner howner
          exact List.mem_map_of_mem (List.mem_cons_of_mem _ hlater)
      · exact hother
    rcases howner with rfl | ⟨scope, hscope, howner⟩
    · obtain ⟨scope, hscope, rfl⟩ := QueryTree.exists_scope_of_mem hmem
      refine ⟨fun hkind => .inr ⟨scope, QueryTree.mem_hanging_iff.2 ⟨hscope, hparent, hkind⟩, ?_⟩,
        fun hkind => ⟨scope.group, List.mem_append_left _ ?_, rfl⟩,
        fun hkind => ⟨scope, List.mem_append_left _ ?_, rfl⟩⟩
      · exact scope.node_mem_nodes_group
      · exact List.mem_map_of_mem (QueryTree.mem_hanging_iff.2 ⟨hscope, hparent, hkind⟩)
      · exact QueryTree.mem_hanging_iff.2 ⟨hscope, hparent, hkind⟩
    · obtain ⟨hjoined, hfolded, hrecursive⟩ :=
        (hbelow scope (QueryTree.mem_hanging_iff.1 hscope).1).closed other hmem owner howner hparent
      refine ⟨fun hkind => .inr ⟨scope, hscope, hjoined hkind⟩, fun hkind => ?_, fun hkind => ?_⟩
      · obtain ⟨group, hgroup, rfl⟩ := hfolded hkind
        exact ⟨group, List.mem_append_right _ (List.mem_flatMap.2 ⟨scope, hscope, hgroup⟩), rfl⟩
      · obtain ⟨recursion, hrecursion, rfl⟩ := hrecursive hkind
        exact ⟨recursion,
          List.mem_append_right _ (List.mem_flatMap.2 ⟨scope, hscope, hrecursion⟩), rfl⟩

/-- Every scope that starts at one of some arranged nodes is cut from them. -/
theorem cutFrom_of_mem_scopes {nodes : List Node} (harranged : Arranged nodes) {scope : Scope}
    (h : scope ∈ QueryTree.scopes nodes) : scope.CutFrom nodes := by
  induction nodes generalizing scope with
  | nil => exact absurd h List.not_mem_nil
  | cons node later ih =>
      have hlater : ∀ scope ∈ QueryTree.scopes later, scope.CutFrom later :=
        fun scope hscope => ih harranged.2.2.2 hscope
      rw [QueryTree.scopes_cons harranged] at h
      rcases List.mem_cons.1 h with rfl | h
      · exact cutFrom_ofNode harranged hlater
      · exact (hlater scope h).cons harranged

/-- A scope is within another one if it belongs to a recursion of it, or to one of a scope within
it. -/
inductive Within (root : Scope) : Scope → Prop
  | refl : Within root root
  | recursion {scope recursion : Scope} (hscope : Within root scope)
      (hrecursion : recursion ∈ scope.recursions) : Within root recursion

/-- A vertex of a fold has neither folds nor recursions, in a scope and all scopes within it. -/
def Unnested (root : Scope) : Prop :=
  ∀ scope, Within root scope → ∀ fold ∈ scope.folds, ∀ node ∈ fold.nodes,
    node.recursions = [] ∧ node.folds = []

theorem nodes_group_subset (scope : Scope) : scope.group.nodes ⊆ scope.nodes := by
  rw [nodes_eq, List.append_assoc]
  exact List.subset_append_left _ _

theorem nodes_fold_subset {scope : Scope} {fold : Group} (h : fold ∈ scope.folds) :
    fold.nodes ⊆ scope.nodes := by
  intro node hnode
  rw [nodes_eq, List.mem_append, List.mem_append]
  exact .inl (.inr (List.mem_flatMap.2 ⟨fold, h, hnode⟩))

theorem Within.nodes_subset {root scope : Scope} (h : Within root scope) :
    scope.nodes ⊆ root.nodes := by
  induction h with
  | refl => exact List.Subset.refl _
  | @recursion scope recursion hscope hrecursion ih =>
      intro node hnode
      apply ih
      rw [nodes_eq, List.mem_append]
      exact .inr (List.mem_flatMap.2 ⟨recursion, hrecursion, hnode⟩)

theorem Within.mem_scopes {root scope : Scope} {nodes : List Node} (harranged : Arranged nodes)
    (hroot : root ∈ QueryTree.scopes nodes) (h : Within root scope) :
    scope ∈ QueryTree.scopes nodes := by
  induction h with
  | refl => exact hroot
  | recursion hscope hrecursion ih =>
      exact ((cutFrom_of_mem_scopes harranged ih).recursions _ hrecursion).2.1

end Scope

/-- A node lists every fold and every recursion that hangs off it. -/
theorem Arranged.listed {nodes : List Node} (h : Arranged nodes) {above below : Node}
    (habove : above ∈ nodes) (hbelow : below ∈ nodes) (hparent : below.parent = some above.id) :
    (below.relation.kind.isFold → below.id ∈ above.folds) ∧
      (below.relation.kind.isRecursion → below.id ∈ above.recursions) := by
  induction nodes with
  | nil => exact absurd habove List.not_mem_nil
  | cons node later ih =>
      obtain ⟨howns, hearlier, -, hlater⟩ := h
      have hmem : below ∈ later := by
        rcases List.mem_cons.1 hbelow with rfl | hmem
        · exact absurd (List.mem_map_of_mem habove) (hearlier above.id hparent)
        · exact hmem
      rcases List.mem_cons.1 habove with rfl | habove
      · rw [howns.folds, howns.recursions]
        constructor
        all_goals
          intro hkind
          apply List.mem_map_of_mem
          simp [hmem, Node.isAbove, hparent, hkind]
      · exact ih hlater habove hmem

/-- Nodes that form a tree: they are arranged, and each but the first hangs off an earlier one. -/
structure Rooted (nodes : List Node) : Prop where
  arranged : Arranged nodes
  hung : ∀ before node after, nodes = before ++ node :: after → before ≠ [] →
    node.relation.kind ≠ .root ∧ ∃ above ∈ before, node.parent = some above.id

namespace Scope

/-- Where a vertex stands in a scope or the scopes within it: in the group of one of them, or in a
fold. -/
def Places (root : Scope) (node : Node) : Prop :=
  ∃ scope, Within root scope ∧
    (node ∈ scope.group.nodes ∨ ∃ fold ∈ scope.folds, node ∈ fold.nodes)

theorem Places.mem_nodes {root : Scope} {node : Node} (h : root.Places node) :
    node ∈ root.nodes := by
  obtain ⟨scope, hwithin, hnode | ⟨fold, hfold, hnode⟩⟩ := h
  · exact hwithin.nodes_subset (scope.nodes_group_subset hnode)
  · exact hwithin.nodes_subset (nodes_fold_subset hfold hnode)

/-- What hangs off a vertex of a fold is reached by a plain crossing and is in the fold. -/
theorem Unnested.hangs_in_fold {nodes : List Node} (harranged : Arranged nodes) {root : Scope}
    (hunnested : root.Unnested) (hroot : root ∈ QueryTree.scopes nodes) {scope : Scope}
    (hwithin : Within root scope) {fold : Group} (hfold : fold ∈ scope.folds) {above below : Node}
    (habove : above ∈ fold.nodes) (hbelow : below ∈ nodes) (hparent : below.parent = some above.id)
    (hkind : below.relation.kind ≠ .root) :
    below.relation.kind.isTraverse ∧ below ∈ fold.nodes := by
  have hcut := cutFrom_of_mem_scopes harranged (hwithin.mem_scopes harranged hroot)
  obtain ⟨-, ⟨owner, howner, rfl⟩, -⟩ := hcut.folds fold hfold
  have hgroup := cutFrom_of_mem_scopes harranged howner
  have hlisted := harranged.listed (hgroup.mem above habove) hbelow hparent
  obtain ⟨hrecursions, hfolds⟩ := hunnested scope hwithin _ hfold above habove
  rw [hrecursions, hfolds] at hlisted
  cases hrelation : below.relation.kind with
  | root => exact absurd hrelation hkind
  | traverse =>
      exact ⟨rfl, (hgroup.closed below hbelow above habove hparent).1 (by rw [hrelation]; rfl)⟩
  | fold => exact absurd (hlisted.1 (by rw [hrelation]; rfl)) List.not_mem_nil
  | recurse depth => exact absurd (hlisted.2 (by rw [hrelation]; rfl)) List.not_mem_nil

/-- What hangs off a vertex that has a place has one too. -/
theorem Places.step {nodes : List Node} (harranged : Arranged nodes) {root : Scope}
    (hroot : root ∈ QueryTree.scopes nodes) (hunnested : root.Unnested) {above below : Node}
    (habove : root.Places above) (hbelow : below ∈ nodes)
    (hparent : below.parent = some above.id) (hkind : below.relation.kind ≠ .root) :
    root.Places below := by
  obtain ⟨scope, hwithin, hmem | ⟨fold, hfold, hmem⟩⟩ := habove
  · have hcut := cutFrom_of_mem_scopes harranged (hwithin.mem_scopes harranged hroot)
    obtain ⟨hjoined, hfolded, hrecursive⟩ := hcut.closed below hbelow above hmem hparent
    cases hrelation : below.relation.kind with
    | root => exact absurd hrelation hkind
    | traverse => exact ⟨scope, hwithin, .inl (hjoined (by rw [hrelation]; rfl))⟩
    | fold =>
        obtain ⟨group, hgroup, rfl⟩ := hfolded (by rw [hrelation]; rfl)
        obtain ⟨node, children⟩ := group
        exact ⟨scope, hwithin, .inr ⟨_, hgroup, List.mem_cons_self⟩⟩
    | recurse depth =>
        obtain ⟨recursion, hrecursion, rfl⟩ := hrecursive (by rw [hrelation]; rfl)
        exact ⟨recursion, hwithin.recursion hrecursion, .inl recursion.node_mem_nodes_group⟩
  · have hjoined := hunnested.hangs_in_fold harranged hroot hwithin hfold hmem hbelow hparent hkind
    exact ⟨scope, hwithin, .inr ⟨fold, hfold, hjoined.2⟩⟩

end Scope

namespace QueryTree

theorem rootScope?_eq_some {tree : QueryTree} {root : Scope} (h : tree.rootScope? = some root) :
    ∃ later, tree.nodes = root.node :: later ∧ root ∈ scopes tree.nodes := by
  obtain ⟨nodes, aliases⟩ := tree
  cases nodes with
  | nil => exact absurd h (by simp [rootScope?, scopesOf])
  | cons node later =>
      obtain rfl := Option.some.inj h
      exact ⟨later, rfl, List.mem_cons_self⟩

/-- No node has two places in the scope of the root. -/
theorem nodes_rootScope_subperm {tree : QueryTree} (harranged : Arranged tree.nodes) {root : Scope}
    (h : tree.rootScope? = some root) : root.nodes.Subperm tree.nodes := by
  obtain ⟨later, hnodes, hroot⟩ := rootScope?_eq_some h
  have houtside : isOutside tree.nodes root.node := by
    rw [hnodes] at harranged ⊢
    simpa [isOutside, Option.all_eq_true] using harranged.2.1
  have hfilter : root ∈ (scopes tree.nodes).filter fun scope => isOutside tree.nodes scope.node :=
    List.mem_filter.2 ⟨hroot, houtside⟩
  obtain ⟨before, after, hsplit⟩ := List.append_of_mem hfilter
  have hsubperm := nodes_scopesOf_subperm harranged
  rw [← scopes, hsplit, List.flatMap_append, List.flatMap_cons] at hsubperm
  exact ((List.sublist_append_left _ _).trans (List.sublist_append_right _ _)).subperm.trans
    hsubperm

/-- Every node has a place in the scope of the root, unless something hangs off a fold. -/
theorem places_of_mem {tree : QueryTree} (htree : Rooted tree.nodes) {root : Scope}
    (h : tree.rootScope? = some root) (hunnested : root.Unnested) {node : Node}
    (hnode : node ∈ tree.nodes) : root.Places node := by
  obtain ⟨later, hnodes, hroot⟩ := rootScope?_eq_some h
  obtain ⟨before, after, hsplit⟩ := List.append_of_mem hnode
  generalize hlength : before.length = length
  induction length using Nat.strongRecOn generalizing before node after with
  | ind length ih =>
      by_cases hbefore : before = []
      · subst hbefore
        rw [hnodes] at hsplit
        obtain ⟨rfl, -⟩ := List.cons.inj hsplit
        exact ⟨root, .refl, .inl root.node_mem_nodes_group⟩
      · obtain ⟨hkind, above, habove, hparent⟩ := htree.hung before node after hsplit hbefore
        obtain ⟨first, second, rfl⟩ := List.append_of_mem habove
        have hplaced : root.Places above := by
          apply ih first.length _ (hsplit ▸ by simp) first (second ++ node :: after)
          · simpa using hsplit
          · rfl
          · simp at hlength
            omega
        exact hplaced.step htree.arranged hroot hunnested hnode hparent hkind

/-- The scope of the root holds every node exactly once, unless something hangs off a fold. -/
theorem nodes_rootScope_perm {tree : QueryTree} (htree : Rooted tree.nodes) {root : Scope}
    (h : tree.rootScope? = some root) (hunnested : root.Unnested) :
    root.nodes.Perm tree.nodes := by
  apply (nodes_rootScope_subperm htree.arranged h).antisymm
  apply List.Nodup.subperm (htree.arranged.distinct.of_map _)
  intro node hnode
  exact (places_of_mem htree h hunnested hnode).mem_nodes

end QueryTree

namespace Blocks

variable {read : Blocks}

theorem getElem?_nodes_tree (read : Blocks) (place : Nat) :
    read.tree.nodes[place]? = (read.relations[place]?).map (read.nodeAt place) := by
  simp [Blocks.tree]

/-- The root scope starts at the first vertex. -/
theorem exists_first_of_rootScope? {root : Scope} (h : read.tree.rootScope? = some root) :
    ∃ relation, read.relations.head? = some relation ∧ root.node = read.nodeAt 0 relation := by
  obtain ⟨rest, hnodes, -⟩ := QueryTree.rootScope?_eq_some h
  have hfirst := getElem?_nodes_tree read 0
  rw [hnodes, List.getElem?_cons_zero, ← List.head?_eq_getElem?] at hfirst
  obtain ⟨relation, hrelation, hnode⟩ := Option.map_eq_some_iff.1 hfirst.symm
  exact ⟨relation, hrelation, hnode.symm⟩

theorem map_location_nodes_tree (read : Blocks) :
    read.tree.nodes.map Node.location = read.relations.map Relation.location := by
  apply List.ext_getElem?
  intro place
  rw [List.getElem?_map, List.getElem?_map, getElem?_nodes_tree, Option.map_map]
  rfl

theorem mem_nodes_tree_iff {node : Node} :
    node ∈ read.tree.nodes ↔
      ∃ place relation, read.relations[place]? = some relation ∧
        node = read.nodeAt place relation := by
  rw [List.mem_iff_getElem?]
  refine exists_congr fun place => ?_
  rw [getElem?_nodes_tree, Option.map_eq_some_iff]
  simp only [eq_comm]

/-- The node that stands at the place of a location. -/
theorem exists_node_of_place? {location : Location} {place : Nat}
    (h : read.place? location = some place) :
    ∃ node ∈ read.tree.nodes, node.id = place ∧ node.location = location := by
  obtain ⟨relation, hrelation, hlocation⟩ := placeAmong_eq_some h
  exact ⟨read.nodeAt place relation, mem_nodes_tree_iff.2 ⟨place, relation, hrelation, rfl⟩, rfl,
    hlocation⟩

/-- An output of a node is an output of the query that has its source at the node. -/
theorem exists_source_of_mem_outputs {node : Node} (hnode : node ∈ read.tree.nodes)
    {output : NodeOutput} (houtput : output ∈ node.outputs) :
    ∃ source, read.outputs[output.index]? = some (output.aliasName, source) ∧
      source.field = output.field ∧ node.location = source.location := by
  obtain ⟨place, relation, hrelation, rfl⟩ := mem_nodes_tree_iff.1 hnode
  obtain ⟨source, hget, hfield, hplace⟩ := mem_outputs_nodeAt_iff.1 houtput
  obtain ⟨found, hfound, hlocation⟩ := placeAmong_eq_some hplace
  obtain rfl := Option.some.inj (hrelation.symm.trans hfound)
  exact ⟨source, hget, hfield, hlocation⟩

/-- The node at the place of a location has the location. -/
theorem location_of_place? {node : Node} (hnode : node ∈ read.tree.nodes) {location : Location}
    (h : read.place? location = some node.id) : node.location = location := by
  obtain ⟨place, relation, hrelation, rfl⟩ := mem_nodes_tree_iff.1 hnode
  obtain ⟨found, hfound, hlocation⟩ := placeAmong_eq_some h
  obtain rfl := Option.some.inj (hrelation.symm.trans hfound)
  exact hlocation

/-- A filter of a node belongs to its location and knows the node of its tag. -/
theorem location_of_mem_predicates {node : Node} (hnode : node ∈ read.tree.nodes)
    {p : NodePredicate} (hp : p ∈ node.predicates) :
    p.predicate.site.location = node.location ∧
      p.tagNode = p.predicate.tag.bind fun tag => read.place? tag.location := by
  obtain ⟨place, relation, hrelation, rfl⟩ := mem_nodes_tree_iff.1 (id hnode)
  obtain ⟨-, hplace, htag⟩ := mem_predicates_nodeAt hp
  exact ⟨(location_of_place? hnode hplace).symm, htag⟩

/-- A node stands at the place of its location. -/
theorem place?_location (hplanted : Planted read.relations) {node : Node}
    (h : node ∈ read.tree.nodes) : read.place? node.location = some node.id := by
  obtain ⟨place, relation, hrelation, rfl⟩ := mem_nodes_tree_iff.1 h
  exact placeAmong_location hplanted.distinct hrelation

theorem map_id_nodes_tree (read : Blocks) :
    read.tree.nodes.map Node.id = List.range read.relations.length := by
  have hid : ∀ place relation, (read.nodeAt place relation).id = place := fun _ _ => rfl
  apply List.ext_getElem
  · simp [Blocks.tree]
  · intro place _ _
    simp [Blocks.tree, hid]

/-- The nodes that hang off a node of a tree come after it. -/
theorem filter_isAbove_drop (hplanted : Planted read.relations) {place : Nat} {relation : Relation}
    (way : RelationKind → Bool) :
    ((read.tree.nodes.drop (place + 1)).filter
        ((read.nodeAt place relation).isAbove way)).map Node.id =
      placesOff read.relations place way := by
  have hnode : ∀ node ∈ read.tree.nodes,
      (read.nodeAt place relation).isAbove way node =
        hangsOff read.relations place way node.id := by
    intro node hmem
    obtain ⟨index, hget⟩ := List.getElem?_of_mem hmem
    rw [getElem?_nodes_tree, Option.map_eq_some_iff] at hget
    obtain ⟨other, hother, rfl⟩ := hget
    change (parentPlace read.relations index == some place && way other.kind) =
      (parentPlace read.relations index == some place
        && (read.relations[index]?).any fun r => way r.kind)
    rw [hother]
    rfl
  have hearlier : ((read.tree.nodes.take (place + 1)).map Node.id).filter
      (hangsOff read.relations place way) = [] := by
    rw [List.filter_eq_nil_iff]
    intro index hindex hhangs
    rw [List.map_take, map_id_nodes_tree, List.mem_take_iff_getElem] at hindex
    obtain ⟨position, hlt, rfl⟩ := hindex
    rw [List.getElem_range] at hhangs
    simp only [hangsOff, Bool.and_eq_true, beq_iff_eq] at hhangs
    have := hplanted.parentPlace_lt hhangs.1
    omega
  have hlater : (read.tree.nodes.drop (place + 1)).filter
      ((read.nodeAt place relation).isAbove way) =
        (read.tree.nodes.drop (place + 1)).filter
          (hangsOff read.relations place way ∘ Node.id) :=
    List.filter_congr fun node hmem => hnode node (List.mem_of_mem_drop hmem)
  have hsplit : read.tree.nodes.map Node.id = (read.tree.nodes.take (place + 1)).map Node.id
      ++ (read.tree.nodes.drop (place + 1)).map Node.id := by
    rw [← List.map_append, List.take_append_drop]
  rw [hlater, ← List.filter_map, placesOff, ← map_id_nodes_tree, hsplit, List.filter_append,
    hearlier, List.nil_append]

theorem arranged_drop (hplanted : Planted read.relations) (place : Nat) :
    Arranged (read.tree.nodes.drop place) := by
  generalize hlength : read.tree.nodes.length - place = length
  induction length generalizing place with
  | zero =>
      rw [List.drop_eq_nil_of_le (by omega)]
      trivial
  | succ length ih =>
      have hlt : place < read.tree.nodes.length := by omega
      have hnodup : (read.tree.nodes.map Node.id).Nodup := by
        rw [map_id_nodes_tree]
        exact List.nodup_range
      have hget := getElem?_nodes_tree read place
      rw [List.getElem?_eq_getElem hlt] at hget
      obtain ⟨relation, hrelation, hnode⟩ := Option.map_eq_some_iff.1 hget.symm
      have hdrop := (List.drop_sublist place (read.tree.nodes.map Node.id)).nodup hnodup
      rw [← List.map_drop, List.drop_eq_getElem_cons hlt, List.map_cons, List.nodup_cons] at hdrop
      rw [List.drop_eq_getElem_cons hlt]
      refine ⟨?_, ?_, hdrop.1, ih (place + 1) (by omega)⟩
      · rw [← hnode]
        exact ⟨(filter_isAbove_drop hplanted _).symm, (filter_isAbove_drop hplanted _).symm,
          (filter_isAbove_drop hplanted _).symm⟩
      · intro parent hparent hmem
        rw [← hnode] at hparent
        have hearlier : parent < place := hplanted.parentPlace_lt hparent
        rw [← List.drop_eq_getElem_cons hlt, List.map_drop, map_id_nodes_tree,
          List.mem_drop_iff_getElem] at hmem
        obtain ⟨position, hposition, rfl⟩ := hmem
        rw [List.getElem_range] at hearlier
        omega

/-- The nodes of the tree of blocks form a tree. -/
theorem rooted_tree (hplanted : Planted read.relations) : Rooted read.tree.nodes where
  arranged := by
    have := arranged_drop hplanted 0
    rwa [List.drop_zero] at this
  hung := by
    intro before node after hsplit hbefore
    have hget : read.tree.nodes[before.length]? = some node := by simp [hsplit]
    rw [getElem?_nodes_tree, Option.map_eq_some_iff] at hget
    obtain ⟨relation, hrelation, rfl⟩ := hget
    have hne : before.length ≠ 0 := by simpa using hbefore
    obtain ⟨hkind, above, habove, hparent⟩ := hplanted.exists_above hne hrelation
    obtain ⟨place, hplace⟩ := Option.isSome_iff_exists.1 (placeAmong_isSome_iff.2
      (List.mem_map_of_mem (f := Relation.location) (List.mem_of_mem_take habove)))
    have hparentPlace : parentPlace read.relations before.length = some place :=
      (parentPlace_of_parent? hne hrelation hparent).trans hplace
    have hlt := hplanted.parentPlace_lt hparentPlace
    obtain ⟨owner, howner, -⟩ := placeAmong_eq_some hplace
    have habove : before[place]? = some (read.nodeAt place owner) := by
      rw [← List.getElem?_append_left hlt, ← hsplit, getElem?_nodes_tree, howner]
      rfl
    exact ⟨hkind, _, List.mem_of_getElem? habove, hparentPlace⟩

end Blocks

end TraversalSql
