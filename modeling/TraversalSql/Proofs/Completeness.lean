import TraversalSql.Proofs.ColumnNames

/-!
Emission loses no output and doubles none.  The columns of a scope are the outputs of its vertices,
vertex by vertex, and the vertices of a tree share out the outputs of the query among them; so the
outputs of an emitted scope, once in order, are the outputs of the query.
-/

namespace TraversalSql

open Outcome

/-- Where the outputs of a node stand among those of the query. -/
def Node.outputIndices (node : Node) : List Nat := node.outputs.map NodeOutput.index

def outputIndices (columns : List ScopeColumn) : List Nat := columns.filterMap ScopeColumn.index

theorem outputIndices_append (columns others : List ScopeColumn) :
    outputIndices (columns ++ others) = outputIndices columns ++ outputIndices others :=
  List.filterMap_append

theorem outputIndices_flatMap {α : Type} (as : List α) (columns : α → List ScopeColumn) :
    outputIndices (as.flatMap columns) = as.flatMap fun a => outputIndices (columns a) :=
  List.filterMap_flatMap

theorem outputIndices_of_not_isOutput {columns : List ScopeColumn}
    (h : ∀ c ∈ columns, ¬ c.isOutput) : outputIndices columns = [] := by
  rw [outputIndices, List.filterMap_eq_nil_iff]
  intro column hcolumn
  simpa [ScopeColumn.isOutput] using h column hcolumn

theorem outputIndices_map_readFrom (columns : List ScopeColumn) (cte : String) :
    outputIndices (columns.map (·.readFrom cte)) = outputIndices columns :=
  List.filterMap_map

/-- Columns can be dropped that are no outputs. -/
theorem outputIndices_filter {columns : List ScopeColumn} {keep : ScopeColumn → Bool}
    (h : ∀ c, c.isOutput → keep c) : outputIndices (columns.filter keep) =
      outputIndices columns := by
  rw [outputIndices, List.filterMap_filter]
  apply List.filterMap_congr
  intro column _
  cases hkeep : keep column with
  | true => rfl
  | false =>
      have hnot : ¬ column.isOutput := fun houtput => by simp [h column houtput] at hkeep
      have hindex : column.index = none := by simpa [ScopeColumn.isOutput] using hnot
      simp [hindex]

/-- Members give out the outputs of their nodes. -/
theorem Members.map_fst_outputs {members : Members} {schema : Schema}
    {outputs : List (NodeOutput × Sql.Expr)} (h : members.outputs schema = .ok outputs) :
    outputs.map Prod.fst = (members.bound.map Member.node).flatMap Node.outputs := by
  have hsame : List.Forall₂ (fun (source : Member × NodeOutput) made => source.2 = made)
      (members.bound.flatMap fun member => member.node.outputs.map fun o => (member, o))
      (outputs.map Prod.fst) := by
    rw [List.forall₂_map_right_iff]
    refine (mapM_eq_ok_iff.1 h).imp fun source made hmade => ?_
    obtain ⟨column, -, hpair⟩ := bind_eq_ok_iff.1 hmade
    rw [← pure_eq_ok_iff.1 hpair]
  rw [← List.forall₂_map_left_iff, List.forall₂_eq_eq_eq] at hsame
  rw [← hsame, List.map_flatMap, List.flatMap_map]
  simp [Function.comp_def]

/-- The columns that outputs become stand where the outputs stand. -/
theorem outputIndices_of_outputs {members : Members} {schema : Schema}
    {outputs : List (NodeOutput × Sql.Expr)} (h : members.outputs schema = .ok outputs)
    {nodes : List Node} (hnodes : members.bound.map Member.node = nodes)
    (expression : NodeOutput × Sql.Expr → Sql.Expr) :
    outputIndices (outputs.map fun o => .ofOutput o.1 (expression o)) =
      nodes.flatMap Node.outputIndices := by
  calc outputIndices (outputs.map fun o => .ofOutput o.1 (expression o))
      = (outputs.map Prod.fst).map NodeOutput.index := by
        rw [outputIndices, List.filterMap_map, List.map_map, ← List.filterMap_eq_map]
        rfl
    _ = nodes.flatMap Node.outputIndices := by
        rw [Members.map_fst_outputs h, hnodes, List.map_flatMap]
        rfl

/-- A fold exposes the outputs of its vertices. -/
theorem FoldMade.outputIndices_eq {target : Target} {owner : Member} {fold : Group}
    {query : FoldQuery} {supply later : Sql.AliasSupply}
    (h : FoldMade target owner fold query supply later) :
    outputIndices query.columns = fold.nodes.flatMap Node.outputIndices := by
  obtain ⟨traversal, table, first, rest, members, filters, outputs, joined, bound, -, -, -,
    hmembers, -, houtputs, rfl, -⟩ := h
  obtain ⟨bindings, -, hnodes, -⟩ := exists_bindings_of_bindGroup _ hmembers
  exact outputIndices_of_outputs houtputs hnodes _

/-- A scope without its recursions exposes the outputs of its vertices and of its folds. -/
theorem BaseMade.outputIndices_eq {target : Target} {entry : Option RecursionEntry} {group : Group}
    {folds : List Group} {members : Members} {emission : ScopeEmission}
    {supply later : Sql.AliasSupply}
    (h : BaseMade target entry group folds members emission supply later) :
    outputIndices emission.query.columns =
      (group.nodes ++ folds.flatMap Group.nodes).flatMap Node.outputIndices := by
  obtain ⟨table, start, outputs, folded, filters, bound, -, -, hmembers, houtputs, hfolded, -,
    rfl⟩ := h
  obtain ⟨bindings, -, hnodes, -⟩ := exists_bindings_of_bindGroup _ hmembers
  have hentry : outputIndices (entryColumns entry) = [] := by
    cases entry <;> rfl
  have hfolds : folded.flatMap (fun query => outputIndices query.columns) =
      folds.flatMap fun fold => fold.nodes.flatMap Node.outputIndices :=
    hfolded.flatMap_eq fun _ _ _ _ ⟨_, _, hmade⟩ => hmade.outputIndices_eq
  rw [baseEmission, outputIndices_append, outputIndices_append, hentry,
    outputIndices_of_outputs houtputs hnodes, outputIndices_flatMap, hfolds, List.nil_append,
    List.flatMap_append, List.flatMap_assoc]

/-- An emitted scope exposes the outputs of its vertices, vertex by vertex. -/
theorem outputIndices_of_emitScope {target : Target} {scope : Scope}
    {entry : Option RecursionEntry} {emission : ScopeEmission} {supply later : Sql.AliasSupply}
    (h : emitScope target scope entry supply = .ok (emission, later)) :
    outputIndices emission.query.columns = scope.nodes.flatMap Node.outputIndices := by
  refine emitScope_induction (motive := fun scope _ emission _ _ =>
    outputIndices emission.query.columns = scope.nodes.flatMap Node.outputIndices)
    ?plain ?wrapped scope h
  case plain =>
    intro group folds entry members base supply later hbase
    rw [hbase.outputIndices_eq, Scope.nodes_eq, Scope.recursions, List.flatMap_nil, List.append_nil]
    rfl
  case wrapped =>
    intro group folds recursions entry members base links attached supply based linked later _ hbase
      hlinks hattached
    have hlinked : outputIndices links = [] := by
      apply outputIndices_of_not_isOutput
      intro c hc
      obtain ⟨recursion, -, _, _, owner, table, key, -, -, -, -, rfl, -⟩ := hlinks.exists_of_mem hc
      simp [ScopeColumn.link, ScopeColumn.isOutput]
    have hbelow : attached.flatMap (fun recursion => outputIndices recursion.columns) =
        (recursions.flatMap Scope.nodes).flatMap Node.outputIndices := by
      rw [← map_fst_zip_of_linksMade hlinks, List.flatMap_map, List.flatMap_assoc]
      refine hattached.flatMap_eq fun source recursion _ _ hmade => ?_
      obtain ⟨table, entry, emission, walked, bound, -, hemission, rfl, rfl⟩ := hmade
      rw [attach, outputIndices_map_readFrom, outputIndices_filter fun _ houtput => houtput,
        hemission]
    have hkept : outputIndices (kept entry (base.query.columns ++ links)) =
        outputIndices base.query.columns := by
      rw [kept, outputIndices_filter (by simp +contextual), outputIndices_append, hlinked,
        List.append_nil]
    rw [wrappedEmission, outputIndices_append, outputIndices_map_readFrom, hkept,
      hbase.outputIndices_eq, outputIndices_flatMap, hbelow, ← List.flatMap_append, Scope.nodes_eq]
    rfl

namespace Blocks

variable {read : Blocks}

theorem mem_outputIndices_nodeAt_iff {place index : Nat} {relation : Relation} :
    index ∈ (read.nodeAt place relation).outputIndices ↔
      ∃ output, read.outputs[index]? = some output ∧
        read.place? output.2.location = some place := by
  rw [Node.outputIndices, List.mem_map]
  constructor
  · rintro ⟨output, houtput, rfl⟩
    obtain ⟨source, hget, -, hplace⟩ := mem_outputs_nodeAt_iff.1 houtput
    exact ⟨_, hget, hplace⟩
  · rintro ⟨⟨aliasName, source⟩, hget, hplace⟩
    exact ⟨⟨source.field, aliasName, index⟩, mem_outputs_nodeAt_iff.2 ⟨source, hget, rfl, hplace⟩,
      rfl⟩

/-- A node gives out no output of the query twice. -/
theorem nodup_outputIndices_nodeAt (place : Nat) (relation : Relation) :
    (read.nodeAt place relation).outputIndices.Nodup := by
  have hzip : (read.outputs.zipIdx.map Prod.snd).Nodup := by
    rw [List.zipIdx_map_snd]
    exact List.nodup_range'
  rw [Node.outputIndices, List.Nodup, List.pairwise_map]
  rw [List.Nodup, List.pairwise_map] at hzip
  refine hzip.filterMap _ ?_
  rintro ⟨_, index⟩ ⟨_, other⟩ hne output houtput last hlast
  rw [Option.ite_none_right_eq_some, Option.some.injEq] at houtput hlast
  obtain ⟨-, rfl⟩ := houtput
  obtain ⟨-, rfl⟩ := hlast
  exact hne

/-- The nodes of a tree share out the outputs of the query. -/
theorem outputIndices_tree_perm (hassemblable : Assemblable read) :
    (read.tree.nodes.flatMap Node.outputIndices).Perm (List.range read.outputs.length) := by
  rw [List.perm_ext_iff_of_nodup ?nodup List.nodup_range]
  case nodup =>
    rw [List.nodup_flatMap]
    refine ⟨fun node hnode => ?_, ?_⟩
    · obtain ⟨place, relation, -, rfl⟩ := mem_nodes_tree_iff.1 hnode
      exact nodup_outputIndices_nodeAt place relation
    · have hdistinct : (read.tree.nodes.map Node.id).Nodup := by
        rw [map_id_nodes_tree]
        exact List.nodup_range
      rw [List.Nodup, List.pairwise_map] at hdistinct
      refine hdistinct.imp_of_mem fun hfirst hsecond hne index hindex hother => hne ?_
      obtain ⟨place, relation, -, rfl⟩ := mem_nodes_tree_iff.1 hfirst
      obtain ⟨second, other, -, rfl⟩ := mem_nodes_tree_iff.1 hsecond
      obtain ⟨output, hget, hplace⟩ := mem_outputIndices_nodeAt_iff.1 hindex
      obtain ⟨found, hfound, hsecond⟩ := mem_outputIndices_nodeAt_iff.1 hother
      obtain rfl := Option.some.inj (hget.symm.trans hfound)
      exact Option.some.inj (hplace.symm.trans hsecond)
  intro index
  rw [List.mem_flatMap, List.mem_range]
  constructor
  · rintro ⟨node, hnode, hindex⟩
    obtain ⟨place, relation, -, rfl⟩ := mem_nodes_tree_iff.1 hnode
    obtain ⟨output, hget, -⟩ := mem_outputIndices_nodeAt_iff.1 hindex
    exact (List.getElem?_eq_some_iff.1 hget).1
  · intro hindex
    have hget : read.outputs[index]? = some read.outputs[index] := List.getElem?_eq_getElem hindex
    obtain ⟨place, hplace⟩ := Option.isSome_iff_exists.1
      (hassemblable.sourced _ (List.getElem_mem hindex))
    obtain ⟨relation, hrelation, -⟩ := placeAmong_eq_some hplace
    exact ⟨_, mem_nodes_tree_iff.2 ⟨place, relation, hrelation, rfl⟩,
      mem_outputIndices_nodeAt_iff.2 ⟨_, hget, hplace⟩⟩

end Blocks

namespace QueryTree

/-- Outputs in order are outputs by their indices. -/
theorem map_index_sortedOutputs {columns : List ScopeColumn} {count : Nat}
    (h : (outputIndices columns).Perm (List.range count)) :
    (sortedOutputs columns).map ScopeColumn.index = (List.range count).map some := by
  have hsome : ∀ c ∈ sortedOutputs columns, c.index = some (c.index.getD 0) := by
    intro c hc
    obtain ⟨index, hindex⟩ := Option.isSome_iff_exists.1 (mem_sortedOutputs_iff.1 hc).2
    rw [hindex]
    rfl
  have hindices : outputIndices (sortedOutputs columns) =
      (sortedOutputs columns).map fun c => c.index.getD 0 := by
    rw [outputIndices, List.filterMap_congr hsome, ← List.filterMap_eq_map]
    rfl
  have hperm : ((sortedOutputs columns).map fun c => c.index.getD 0).Perm (List.range count) := by
    rw [← hindices]
    refine ((List.mergeSort_perm _ _).filterMap _).trans ?_
    rwa [← outputIndices, outputIndices_filter fun _ houtput => houtput]
  have hsorted : ((sortedOutputs columns).map fun c => c.index.getD 0).Pairwise (· ≤ ·) := by
    have hmade : (sortedOutputs columns).Pairwise
        fun a b => decide (a.index.getD 0 ≤ b.index.getD 0) :=
      List.pairwise_mergeSort (fun a b c => by simpa using Nat.le_trans)
        (fun a b => by simpa using Nat.le_total _ _) _
    rw [List.pairwise_map]
    exact hmade.imp fun hle => of_decide_eq_true hle
  rw [← hperm.eq_of_pairwise' hsorted List.pairwise_le_range, List.map_map]
  exact List.map_congr_left hsome

/-- Once the scope of its root is emitted, all outputs of a query are there. -/
theorem isComplete_of_emitScope {read : Blocks} (hassemblable : Assemblable read) {target : Target}
    {root : Scope} (hroot : read.tree.rootScope? = some root) {emission : ScopeEmission}
    {supply later : Sql.AliasSupply}
    (h : emitScope target root none supply = .ok (emission, later)) :
    read.tree.isComplete (sortedOutputs emission.query.columns) := by
  have hnodes : root.nodes.Perm read.tree.nodes :=
    nodes_rootScope_perm (Blocks.rooted_tree hassemblable.planted) hroot
      (binds_of_emitScope h).unnested
  have hindices : (outputIndices emission.query.columns).Perm
      (List.range read.outputs.length) := by
    rw [outputIndices_of_emitScope h]
    exact (hnodes.flatMap_right _).trans (Blocks.outputIndices_tree_perm hassemblable)
  have hlength : read.tree.outputAliases.length = read.outputs.length := by
    simp [Blocks.tree]
  rw [isComplete, hlength, map_index_sortedOutputs hindices]
  exact beq_self_eq_true _

end QueryTree

end TraversalSql
