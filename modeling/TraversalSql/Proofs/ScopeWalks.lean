import TraversalSql.Proofs.TreeShape

/-!
The walks by which the members of scopes are collected.  A walk keeps a stack of nodes; in each turn
it visits the node on top and puts the children of this node in its place.  Started at a vertex at
which a scope starts, it ends within as many turns as the tree has nodes and has then visited what
the scope joins, each vertex before those below it.  The walks from all these vertices together
visit every node once.
-/

namespace TraversalSql

namespace QueryTree

/-- The nodes that are visited from a stack within a number of turns, if the stack is empty then. -/
def visit (tree : QueryTree) : Nat → List Nat → Option (List Node)
  | _, [] => some []
  | 0, _ :: _ => none
  | turns + 1, id :: stack => do
      let node ← tree.nodes[id]?
      return node :: (← tree.visit turns (node.children ++ stack))

theorem visit_nil (tree : QueryTree) (turns : Nat) : tree.visit turns [] = some [] := by
  cases turns <;> rfl

theorem visit_cons {tree : QueryTree} {node : Node} (h : tree.nodes[node.id]? = some node)
    (turns : Nat) (stack : List Nat) :
    tree.visit (turns + 1) (node.id :: stack) =
      (tree.visit turns (node.children ++ stack)).map (node :: ·) := by
  rw [visit, h]
  cases hrest : tree.visit turns (node.children ++ stack) with
  | none => simp [hrest]
  | some rest => simp [hrest]

end QueryTree

/-- Each vertex of a group lists the vertices that hang directly below it, in order. -/
inductive Group.Lists : Group → Prop
  | mk {node : Node} {children : List Group}
      (hids : node.children = children.map fun child => child.node.id)
      (hbelow : ∀ child ∈ children, Lists child) : Lists (.mk node children)

mutual

/-- A walk visits a group before anything else that is on the stack. -/
theorem Group.visit_append {tree : QueryTree} (group : Group) (hlists : group.Lists)
    (hnodes : ∀ node ∈ group.nodes, tree.nodes[node.id]? = some node) (turns : Nat)
    (stack : List Nat) :
    tree.visit (group.nodes.length + turns) (group.node.id :: stack) =
      (tree.visit turns stack).map (group.nodes ++ ·) := by
  match group, hlists with
  | .mk node children, .mk hids hbelow =>
      obtain ⟨hnode, hrest⟩ := List.forall_mem_cons.1 hnodes
      have hturns : (Group.mk node children).nodes.length + turns =
          (Group.nodesOfAll children).length + turns + 1 := by
        rw [Group.nodes, List.length_cons]
        omega
      rw [hturns, Group.node, QueryTree.visit_cons hnode, hids,
        Group.visit_append_ofAll children hbelow hrest turns stack, Option.map_map]
      rfl

theorem Group.visit_append_ofAll {tree : QueryTree} (groups : List Group)
    (hlists : ∀ group ∈ groups, group.Lists)
    (hnodes : ∀ node ∈ Group.nodesOfAll groups, tree.nodes[node.id]? = some node) (turns : Nat)
    (stack : List Nat) :
    tree.visit ((Group.nodesOfAll groups).length + turns)
        (groups.map (fun group => group.node.id) ++ stack) =
      (tree.visit turns stack).map (Group.nodesOfAll groups ++ ·) := by
  match groups with
  | [] => simp [Group.nodesOfAll]
  | group :: groups =>
      obtain ⟨hfirst, hrest⟩ := List.forall_mem_cons.1 hlists
      obtain ⟨hgroup, hothers⟩ := List.forall_mem_append.1 hnodes
      rw [Group.nodesOfAll, List.length_append, Nat.add_assoc, List.map_cons, List.cons_append,
        Group.visit_append group hfirst hgroup, Group.visit_append_ofAll groups hrest hothers,
        Option.map_map]
      simp [Function.comp_def]

end

/-- A walk from the top of a group ends, if there are turns enough, and visits the group. -/
theorem Group.visit_eq_some {tree : QueryTree} {group : Group} (hlists : group.Lists)
    (hnodes : ∀ node ∈ group.nodes, tree.nodes[node.id]? = some node) {turns : Nat}
    (hturns : group.nodes.length ≤ turns) :
    tree.visit turns [group.node.id] = some group.nodes := by
  have hvisit := group.visit_append hlists hnodes (turns - group.nodes.length) []
  rwa [Nat.add_sub_cancel' hturns, QueryTree.visit_nil, Option.map_some, List.append_nil] at hvisit

namespace QueryTree

theorem map_node_hanging (node : Node) (way : RelationKind → Bool) (later : List Node) :
    (hanging node way (scopesOf later)).map Scope.node = later.filter (node.isAbove way) := by
  nth_rewrite 2 [← map_node_scopesOf later]
  rw [hanging, List.filter_map, List.filter_map, List.map_map]
  rfl

/-- The groups of scopes list what hangs below their vertices. -/
theorem lists_of_mem_scopes {nodes : List Node} (harranged : Arranged nodes) {scope : Scope}
    (h : scope ∈ scopes nodes) : scope.group.Lists := by
  induction nodes generalizing scope with
  | nil => exact absurd h List.not_mem_nil
  | cons node later ih =>
      have hlater : ∀ scope ∈ scopes later, scope.group.Lists := fun scope hscope =>
        ih harranged.2.2.2 hscope
      rw [scopes_cons harranged] at h
      rcases List.mem_cons.1 h with rfl | h
      · refine .mk ?_ (List.forall_mem_map.2 fun below hbelow =>
          hlater below (mem_hanging_iff.1 hbelow).1)
        rw [harranged.1.children, ← map_node_hanging, List.map_map, List.map_map]
        rfl
      · exact hlater scope h

/-- Whether a node is reached by a plain crossing from none of some nodes. -/
def startsAmong (nodes : List Node) (node : Node) : Bool :=
  isOutside nodes node || !node.relation.kind.isTraverse

private theorem filter_append_filter_perm {α : Type} {p q r : α → Bool} {l : List α}
    (hp : ∀ a ∈ l, p a → r a) (hq : ∀ a ∈ l, (r a && !p a) = q a) :
    (l.filter p ++ l.filter q).Perm (l.filter r) := by
  have hfirst : (l.filter r).filter p = l.filter p := by
    rw [List.filter_filter]
    refine List.filter_congr fun a ha => ?_
    cases hpa : p a with
    | false => rfl
    | true => exact hp a ha hpa
  have hsecond : (l.filter r).filter (fun a => !p a) = l.filter q := by
    rw [List.filter_filter]
    refine List.filter_congr fun a ha => ?_
    rw [Bool.and_comm]
    exact hq a ha
  rw [← hfirst, ← hsecond]
  exact List.filter_append_perm p (l.filter r)

/-- The groups of the scopes that start among nodes hold each node once. -/
theorem nodes_groups_perm {nodes : List Node} (h : Arranged nodes) :
    (((scopes nodes).filter fun scope => startsAmong nodes scope.node).flatMap
      fun scope => scope.group.nodes).Perm nodes := by
  induction nodes with
  | nil => exact .refl _
  | cons node later ih =>
      have hlater := ih h.2.2.2
      have hscopes := scopes_cons h
      obtain ⟨-, hparent, hid, -⟩ := h
      have houtside : startsAmong (node :: later) node := by
        have : isOutside (node :: later) node := by
          simpa [isOutside, Option.all_eq_true] using hparent
        simp [startsAmong, this]
      -- What the node joins starts among the later nodes, but no longer among all of them.
      have hsplit : (hanging node RelationKind.isTraverse (scopesOf later) ++
          (scopes later).filter fun scope => startsAmong (node :: later) scope.node).Perm
          ((scopes later).filter fun scope => startsAmong later scope.node) := by
        refine filter_append_filter_perm (fun scope _ habove => ?_) (fun scope _ => ?_)
        · simp only [Node.isAbove, Bool.and_eq_true, beq_iff_eq] at habove
          simpa [startsAmong, isOutside, habove.1, habove.2] using hid
        · cases hsome : scope.node.parent with
          | none => simp [startsAmong, isOutside, Node.isAbove, hsome]
          | some above =>
              by_cases hsame : above = node.id
              · subst hsame
                cases htraverse : scope.node.relation.kind.isTraverse <;>
                  simp [startsAmong, isOutside, Node.isAbove, hsome, htraverse]
              · simp [startsAmong, isOutside, Node.isAbove, hsome, hsame]
      have hfilter : (scopes (node :: later)).filter
          (fun scope => startsAmong (node :: later) scope.node) = Scope.ofNode node
            (hanging node RelationKind.isTraverse (scopesOf later))
            (hanging node RelationKind.isFold (scopesOf later))
            (hanging node RelationKind.isRecursion (scopesOf later)) ::
          (scopes later).filter fun scope => startsAmong (node :: later) scope.node := by
        rw [hscopes]
        exact List.filter_cons_of_pos houtside
      rw [hfilter, List.flatMap_cons, Scope.nodes_group_ofNode, List.cons_append,
        ← List.flatMap_append]
      exact ((hsplit.flatMap_right _).trans hlater).cons node

end QueryTree

/-- Whether a scope starts at a node: it is the first one, or it is folded or recursed to. -/
def Node.isTop (node : Node) : Bool :=
  node.parent.isNone || node.relation.kind.isFold || node.relation.kind.isRecursion

def QueryTree.tops (tree : QueryTree) : List Node := tree.nodes.filter Node.isTop

namespace Blocks

variable {read : Blocks}

theorem getElem?_id_of_mem {node : Node} (h : node ∈ read.tree.nodes) :
    read.tree.nodes[node.id]? = some node := by
  obtain ⟨place, relation, hrelation, rfl⟩ := mem_nodes_tree_iff.1 h
  change read.tree.nodes[place]? = _
  rw [getElem?_nodes_tree, hrelation]
  rfl

theorem kind_ne_root_of_parent (hplanted : Planted read.relations) {node : Node}
    (h : node ∈ read.tree.nodes) {above : Nat} (habove : node.parent = some above) :
    node.relation.kind ≠ .root := by
  obtain ⟨place, relation, hrelation, rfl⟩ := mem_nodes_tree_iff.1 h
  exact hplanted.kind_ne_root hrelation habove

/-- The vertices that start among all nodes are those at which scopes start. -/
theorem startsAmong_nodes (hplanted : Planted read.relations) {node : Node}
    (h : node ∈ read.tree.nodes) :
    QueryTree.startsAmong read.tree.nodes node = node.isTop := by
  cases hparent : node.parent with
  | none => simp [QueryTree.startsAmong, QueryTree.isOutside, Node.isTop, hparent]
  | some above =>
      obtain ⟨-, owner, howner, -⟩ := lt_and_exists_owner hplanted h hparent
      have hkind := kind_ne_root_of_parent hplanted h hparent
      have hmem : above ∈ read.tree.nodes.map Node.id := by
        rw [map_id_nodes_tree, List.mem_range, ← size_tree]
        exact (List.getElem?_eq_some_iff.1 howner).1
      have houtside : QueryTree.isOutside read.tree.nodes node = false := by
        simp only [QueryTree.isOutside, hparent, Option.all_some, decide_eq_false_iff_not, not_not]
        exact hmem
      rw [QueryTree.startsAmong, houtside, Node.isTop, hparent]
      cases hrelation : node.relation.kind with
      | root => exact absurd hrelation hkind
      | traverse | recurse | fold => rfl

/-- The groups of the scopes that start somewhere hold each node once. -/
theorem nodes_groups_tops_perm (hplanted : Planted read.relations) :
    (((QueryTree.scopes read.tree.nodes).filter fun scope => scope.node.isTop).flatMap
      fun scope => scope.group.nodes).Perm read.tree.nodes := by
  have harranged := (rooted_tree hplanted).arranged
  have hstarts : (QueryTree.scopes read.tree.nodes).filter (fun scope => scope.node.isTop) =
      (QueryTree.scopes read.tree.nodes).filter
        fun scope => QueryTree.startsAmong read.tree.nodes scope.node := by
    refine List.filter_congr fun scope hscope => (startsAmong_nodes hplanted ?_).symm
    exact (Scope.cutFrom_of_mem_scopes harranged hscope).mem _ scope.node_mem_nodes_group
  rw [hstarts]
  exact QueryTree.nodes_groups_perm harranged

/-- A walk from a vertex at which a scope starts visits what the scope joins, and ends. -/
theorem visit_eq_some_of_isTop (hplanted : Planted read.relations) {scope : Scope}
    (hscope : scope ∈ QueryTree.scopes read.tree.nodes) (htop : scope.node.isTop) :
    read.tree.visit read.tree.size [scope.node.id] = some scope.group.nodes := by
  have harranged := (rooted_tree hplanted).arranged
  have hcut := Scope.cutFrom_of_mem_scopes harranged hscope
  refine Group.visit_eq_some (QueryTree.lists_of_mem_scopes harranged hscope)
    (fun node hnode => getElem?_id_of_mem (hcut.mem node hnode)) ?_
  have hmem : scope ∈ (QueryTree.scopes read.tree.nodes).filter fun scope => scope.node.isTop :=
    List.mem_filter.2 ⟨hscope, htop⟩
  have hsublist := List.sublist_flatten_of_mem
    (List.mem_map_of_mem (f := fun scope : Scope => scope.group.nodes) hmem)
  exact hsublist.length_le.trans (nodes_groups_tops_perm hplanted).length_eq.le

/-- The walks from all vertices at which scopes start end, and together visit each node once. -/
theorem exists_walks (hplanted : Planted read.relations) :
    ∃ walks, List.Forall₂ (fun top walk => read.tree.visit read.tree.size [top.id] = some walk)
      read.tree.tops walks ∧ walks.flatten.Perm read.tree.nodes := by
  have hnodes : (QueryTree.scopes read.tree.nodes).map Scope.node = read.tree.nodes := by
    rw [QueryTree.scopes, List.map_map]
    exact QueryTree.map_node_scopesOf read.tree.nodes
  have htops : ((QueryTree.scopes read.tree.nodes).filter fun scope => scope.node.isTop).map
      Scope.node = read.tree.tops := by
    have hfilter := List.filter_map (p := Node.isTop) (f := Scope.node)
      (l := QueryTree.scopes read.tree.nodes)
    rw [hnodes] at hfilter
    exact hfilter.symm
  refine ⟨_, ?_, nodes_groups_tops_perm hplanted⟩
  rw [← htops, List.forall₂_map_left_iff, List.forall₂_map_right_iff, List.forall₂_same]
  intro scope hscope
  obtain ⟨hmem, htop⟩ := List.mem_filter.1 hscope
  exact visit_eq_some_of_isTop hplanted hmem htop

end Blocks

end TraversalSql
