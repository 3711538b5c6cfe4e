import TraversalSql.Proofs.OuterJoins
import TraversalSql.Proofs.Provenance

/-!
Where the filters of a query go.  The filters that a query asks for and the conditions of the
selects outside the recursive tables of its statement correspond one to one: each condition stands
in the select that binds the vertex of its filter, and compares the column of the field there.
-/

namespace TraversalSql

open Outcome

/-- The members of two lists correspond one to one, in some order of the second. -/
def Paired {α β : Type} (R : α → β → Prop) (as : List α) (bs : List β) : Prop :=
  ∃ cs, List.Forall₂ R as cs ∧ cs.Perm bs

namespace Paired

variable {α β γ : Type} {R S : α → β → Prop} {as : List α} {bs : List β}

theorem of_forall₂ (h : List.Forall₂ R as bs) : Paired R as bs := ⟨bs, h, .refl _⟩

theorem nil : Paired R [] [] := of_forall₂ .nil

theorem perm_right (h : Paired R as bs) {others : List β} (hperm : bs.Perm others) :
    Paired R as others := by
  obtain ⟨cs, hforall, hcs⟩ := h
  exact ⟨cs, hforall, hcs.trans hperm⟩

theorem perm_left (h : Paired R as bs) {others : List α} (hperm : others.Perm as) :
    Paired R others bs := by
  obtain ⟨cs, hforall, hcs⟩ := h
  obtain ⟨ds, hothers, hds⟩ := List.perm_comp_forall₂ hperm hforall
  exact ⟨ds, hothers, hds.trans hcs⟩

theorem append (h : Paired R as bs) {others : List α} {images : List β}
    (hothers : Paired R others images) : Paired R (as ++ others) (bs ++ images) := by
  obtain ⟨cs, hforall, hcs⟩ := h
  obtain ⟨ds, hmore, hds⟩ := hothers
  exact ⟨cs ++ ds, List.rel_append hforall hmore, hcs.append hds⟩

theorem imp_of_mem (h : Paired R as bs) (hsub : ∀ a, ∀ b ∈ bs, R a b → S a b) :
    Paired S as bs := by
  obtain ⟨cs, hforall, hcs⟩ := h
  refine ⟨cs, ?_, hcs⟩
  have hmem := (List.forall₂_and_left (R := fun b a => R a b) cs as).2
    ⟨fun b hb => hcs.subset hb, hforall.flip⟩
  exact (hmem.imp fun b a ⟨hb, hr⟩ => hsub a b hb hr).flip

theorem imp (h : Paired R as bs) (hsub : ∀ a b, R a b → S a b) : Paired S as bs :=
  h.imp_of_mem fun a b _ => hsub a b

theorem trans {T : β → γ → Prop} {cs : List γ} (h : Paired R as bs) (hnext : Paired T bs cs) :
    Paired (fun a c => ∃ b, R a b ∧ T b c) as cs := by
  obtain ⟨images, hforall, hperm⟩ := h
  obtain ⟨ends, hends, hlast⟩ := hnext.perm_left hperm
  refine ⟨ends, ?_, hlast⟩
  clear hperm hlast
  induction hforall generalizing ends with
  | nil =>
      cases hends
      exact .nil
  | cons hfirst _ ih =>
      cases hends with
      | cons hthen hrest => exact .cons ⟨_, hfirst, hthen⟩ (ih _ hrest)

end Paired

theorem Steps.paired_flatMap {α β γ δ : Type}
    {made : α → β → Sql.AliasSupply → Sql.AliasSupply → Prop} {as : List α} {bs : List β}
    {supply later : Sql.AliasSupply} (h : Steps made as bs supply later) {R : γ → δ → Prop}
    {f : β → List γ} {g : β → List δ}
    (hmade : ∀ a, ∀ b ∈ bs, ∀ supply later, made a b supply later → Paired R (f b) (g b)) :
    Paired R (bs.flatMap f) (bs.flatMap g) := by
  induction h with
  | nil => exact .nil
  | cons hfirst _ ih =>
      exact (hmade _ _ List.mem_cons_self _ _ hfirst).append
        (ih fun a b hb => hmade a b (List.mem_cons_of_mem _ hb))

/-- The filters of the vertices that members bind, in the order of the members. -/
def Member.asked (bound : List Member) : List (Member × NodePredicate) :=
  bound.flatMap fun member => member.node.predicates.map fun p => (member, p)

/-- The conditions of selects, each with the select in which it stands. -/
def Sql.placed (selects : List Sql.Select) : List (Sql.Select × Sql.Expr) :=
  selects.flatMap fun select => select.filters.map fun condition => (select, condition)

theorem Member.asked_append (bound others : List Member) :
    asked (bound ++ others) = asked bound ++ asked others :=
  List.flatMap_append

theorem Member.asked_flatMap {α : Type} (l : List α) (f : α → List Member) :
    asked (l.flatMap f) = l.flatMap fun a => asked (f a) :=
  List.flatMap_assoc

theorem Sql.placed_append (selects others : List Sql.Select) :
    placed (selects ++ others) = placed selects ++ placed others :=
  List.flatMap_append

theorem Sql.placed_flatMap {α : Type} (l : List α) (f : α → List Sql.Select) :
    placed (l.flatMap f) = l.flatMap fun a => placed (f a) :=
  List.flatMap_assoc

/-- A condition stands for a filter of a vertex: it was made from the members of a scope, all of
which are bound in the select of the condition and joined there as their places in the scope ask
for. -/
def StandsFor (schema : Schema) (bound : List Member) (source : Member × NodePredicate)
    (place : Sql.Select × Sql.Expr) : Prop :=
  source.2 ∈ source.1.node.predicates ∧ ∃ (members : Members) (scopeRoot : Node),
    source.1 ∈ members.bound ∧ (∀ m ∈ members.bound, m ∈ bound ∧ m.BoundIn schema place.1) ∧
    (∀ m ∈ members.bound, m.JoinedIn scopeRoot place.1.source) ∧
    members.filter schema scopeRoot source.1 source.2 = .ok place.2

theorem StandsFor.mono {schema : Schema} {bound others : List Member}
    {source : Member × NodePredicate} {place : Sql.Select × Sql.Expr}
    (h : StandsFor schema bound source place) (hothers : bound ⊆ others) :
    StandsFor schema others source place := by
  obtain ⟨hsource, members, scopeRoot, hmember, hbound, hjoined, hfilter⟩ := h
  exact ⟨hsource, members, scopeRoot, hmember,
    fun m hm => ⟨hothers (hbound m hm).1, (hbound m hm).2⟩, hjoined, hfilter⟩

/-- The conditions that a select has from its members stand for the filters of these. -/
theorem Members.paired_filters (members : Members) (select : Sql.Select) {schema : Schema}
    {scopeRoot : Node} (h : members.filters schema scopeRoot = .ok select.filters)
    (hbound : ∀ m ∈ members.bound, m.BoundIn schema select)
    (hjoined : ∀ m ∈ members.bound, m.JoinedIn scopeRoot select.source) :
    Paired (StandsFor schema members.bound) (Member.asked members.bound) (Sql.placed [select]) := by
  have hforall := mapM_eq_ok_iff.1 h
  apply Paired.of_forall₂
  rw [Sql.placed, List.flatMap_singleton, List.forall₂_map_right_iff]
  have hmem := (List.forall₂_and_left _ _).2 ⟨fun source hsource => hsource, hforall⟩
  refine hmem.imp ?_
  rintro ⟨m, p⟩ condition ⟨hsource, hfilter⟩
  obtain ⟨other, hm, hp⟩ := List.mem_flatMap.1 hsource
  obtain ⟨_, hpredicate, hsame⟩ := List.mem_map.1 hp
  obtain ⟨rfl, rfl⟩ := Prod.mk.inj hsame
  exact ⟨hpredicate, members, scopeRoot, hm, fun m hm => ⟨hm, hbound m hm⟩, hjoined, hfilter⟩

/-- The filters of the vertices of a fold stand in its select. -/
theorem FoldMade.paired {target : Target} {owner : Member} {fold : Group} {query : FoldQuery}
    {supply later : Sql.AliasSupply} (h : FoldMade target owner fold query supply later) :
    Paired (StandsFor target.schema query.bound) (Member.asked query.bound)
      (Sql.placed (Sql.plainSelects [query.cte])) := by
  obtain ⟨select, hselect, hbound⟩ := h.binds.select
  have hjoined := h.joinedIn hselect
  obtain ⟨traversal, table, first, rest, members, filters, outputs, joined, bound, -, -, -, -,
    hfilters, -, rfl, -⟩ := h
  obtain rfl := Option.some.inj hselect
  exact members.paired_filters _ hfilters hbound hjoined

/-- The filters of the vertices that an emission binds stand in its selects, whatever columns the
last of them has. -/
def ScopeEmission.Places (emission : ScopeEmission) (schema : Schema) : Prop :=
  ∀ columns, Paired (StandsFor schema emission.bound) (Member.asked emission.bound)
    (Sql.placed (Sql.plainSelects emission.ctes ++
      [({ emission.query with columns } : ScopeQuery).select]))

/-- The filters of a scope without its recursions stand in its select and in those of its folds. -/
theorem BaseMade.places {target : Target} {entry : Option RecursionEntry} {group : Group}
    {folds : List Group} {members : Members} {emission : ScopeEmission}
    {supply later : Sql.AliasSupply}
    (h : BaseMade target entry group folds members emission supply later) :
    emission.Places target.schema := by
  have hselect := h.boundIn_select
  have hjoined := h.joinedIn
  obtain ⟨table, start, outputs, folded, filters, bound, -, -, -, -, hfolded, hfilters, rfl⟩ := h
  intro columns
  have hfolds : Paired (StandsFor target.schema (folded.flatMap FoldQuery.bound))
      (folded.flatMap fun query => Member.asked query.bound)
      (folded.flatMap fun query => Sql.placed (Sql.plainSelects [query.cte])) := by
    apply hfolded.paired_flatMap
    rintro fold query hquery _ _ ⟨owner, -, hmade⟩
    refine hmade.paired.imp fun _ _ hstands => hstands.mono ?_
    exact fun m hm => List.mem_flatMap.2 ⟨query, hquery, hm⟩
  have hmembers := members.paired_filters
    ({ (baseEmission entry start members outputs folded filters).query with columns } :
      ScopeQuery).select hfilters hselect hjoined
  have hplain : Sql.plainSelects (folded.map FoldQuery.cte) =
      folded.flatMap fun query => Sql.plainSelects [query.cte] := by
    rw [Sql.plainSelects, List.map_eq_flatMap, List.filterMap_flatMap]
    rfl
  rw [baseEmission, hplain, Member.asked_append, Member.asked_flatMap, Sql.placed_append,
    Sql.placed_flatMap]
  -- The members come before those of the folds, but the tables of the folds before the select.
  refine Paired.perm_right (.append ?_ ?_) List.perm_append_comm
  · exact hmembers.imp fun _ _ hstands => hstands.mono (List.subset_append_left _ _)
  · exact hfolds.imp fun _ _ hstands => hstands.mono (List.subset_append_right _ _)

/-- The filters of a scope with its recursions stand where those of the scope and of the recursions
stand; the select that joins the recursions has none of its own. -/
theorem BaseMade.places_wrapped {target : Target} {entry : Option RecursionEntry} {group : Group}
    {folds : List Group} {members : Members} {base : ScopeEmission} {supply based : Sql.AliasSupply}
    (hbase : BaseMade target entry group folds members base supply based)
    {sources : List (Scope × String)} {links : List ScopeColumn} {scopeRoot : Node}
    {scopeCte : String} {attached : List AttachedRecursion} {linked later : Sql.AliasSupply}
    (hattached : Steps (AttachedMade target
      (fun _ _ emission _ _ => emission.Places target.schema) scopeRoot scopeCte)
      sources attached linked later) :
    (wrappedEmission entry base links scopeCte attached).Places target.schema := by
  intro columns
  have hbelow : Paired (StandsFor target.schema (attached.flatMap AttachedRecursion.bound))
      (attached.flatMap fun recursion => Member.asked recursion.bound)
      (attached.flatMap fun recursion => Sql.placed (Sql.plainSelects recursion.ctes)) := by
    apply hattached.paired_flatMap
    intro source recursion hrecursion _ _ hmade
    obtain ⟨_, emission, _, _, -, -, hplaces, hplain, hsame⟩ := hmade.exists_emission
    rw [hplain, hsame]
    refine (hplaces emission.query.columns).imp fun _ _ hstands => hstands.mono ?_
    exact fun m hm => List.mem_flatMap.2 ⟨recursion, hrecursion, hsame ▸ hm⟩
  have hlast : Sql.placed [({ (wrappedEmission entry base links scopeCte attached).query with
      columns } : ScopeQuery).select] = [] := rfl
  rw [Sql.placed_append, hlast, List.append_nil, plainSelects_wrappedEmission, Sql.placed_append,
    Sql.placed_flatMap, wrappedEmission, Member.asked_append, Member.asked_flatMap]
  refine .append ?_ ?_
  · exact (hbase.places _).imp fun _ _ hstands => hstands.mono (List.subset_append_left _ _)
  · exact hbelow.imp fun _ _ hstands => hstands.mono (List.subset_append_right _ _)

/-- The filters of every emitted scope stand in its selects. -/
theorem places_of_emitScope {target : Target} {scope : Scope} {entry : Option RecursionEntry}
    {emission : ScopeEmission} {supply later : Sql.AliasSupply}
    (h : emitScope target scope entry supply = .ok (emission, later)) :
    emission.Places target.schema := by
  refine emitScope_induction
    (motive := fun _ _ emission _ _ => emission.Places target.schema) ?plain ?wrapped scope h
  case plain =>
    intro group folds entry members base supply later hbase
    exact hbase.places
  case wrapped =>
    intro group folds recursions entry members base links attached supply based linked later _ hbase
      _ hattached
    exact hbase.places_wrapped hattached

theorem flatMap_range_eq_singleton {α : Type} {n k : Nat} (hk : k < n) (a : α) :
    (List.range n).flatMap (fun i => if k = i then [a] else []) = [a] := by
  induction n with
  | zero => exact absurd hk (Nat.not_lt_zero k)
  | succ n ih =>
      rw [List.range_succ, List.flatMap_append, List.flatMap_singleton]
      by_cases hlast : k = n
      · have hbefore : (List.range n).flatMap (fun i => if k = i then [a] else []) = [] := by
          rw [List.flatMap_eq_nil_iff]
          intro i hi
          rw [if_neg]
          exact fun hsame => absurd (List.mem_range.1 hi) (by omega)
        rw [hbefore, if_pos hlast, List.nil_append]
      · rw [ih (by omega), if_neg hlast, List.append_nil]

/-- A filter as it is attached to a node, when locations have given places. -/
def Predicate.attached (placeOf : Location → Option Nat) (predicate : Predicate) : NodePredicate :=
  ⟨predicate, predicate.tag.bind fun tag => placeOf tag.location⟩

theorem predicatesAt_singleton (placeOf : Location → Option Nat) (place : Nat) (p : Predicate) :
    predicatesAt placeOf place [.predicate p] =
      if placeOf p.site.location = some place then [p.attached placeOf] else [] := by
  by_cases hplace : placeOf p.site.location = some place <;>
    simp [predicatesAt, Predicate.attached, hplace]

/-- Each filter is attached to one of the nodes. -/
theorem flatMap_predicatesAt_perm {placeOf : Location → Option Nat} {n : Nat} {blocks : List Block}
    (h : ∀ p ∈ blocks.filterMap Block.predicate?,
      ∃ place < n, placeOf p.site.location = some place) :
    ((List.range n).flatMap fun place => predicatesAt placeOf place blocks).Perm
      ((blocks.filterMap Block.predicate?).map (Predicate.attached placeOf)) := by
  induction blocks with
  | nil => simp [predicatesAt]
  | cons block blocks ih =>
      simp only [predicatesAt_cons placeOf _ block blocks]
      refine (List.flatMap_append_perm _ _ _).symm.trans ?_
      cases block with
      | predicate p =>
          obtain ⟨hfirst, hrest⟩ := List.forall_mem_cons.1 h
          obtain ⟨place, hlt, hplace⟩ := hfirst
          have hone : (List.range n).flatMap
              (fun place => predicatesAt placeOf place [.predicate p]) = [p.attached placeOf] := by
            simp only [predicatesAt_singleton, hplace, Option.some.injEq]
            exact flatMap_range_eq_singleton hlt _
          rw [hone]
          exact (ih hrest).cons _
      | relation _ | selection _ | link _ =>
          exact (List.Perm.of_eq (List.flatMap_eq_nil_iff.2 fun _ _ => rfl)).append (ih h)

namespace Blocks

variable {read : Blocks}

/-- The nodes of a tree have the filters that were read, each one once. -/
theorem predicates_nodes_perm (hread : Assemblable read) :
    (read.tree.nodes.flatMap Node.predicates).Perm
      ((read.blocks.filterMap Block.predicate?).map (Predicate.attached read.place?)) := by
  have hnodes : read.tree.nodes.map Node.predicates =
      (List.range read.relations.length).map fun place =>
        predicatesAt read.place? place read.blocks := by
    apply List.ext_getElem
    · simp [Blocks.tree]
    · intro place _ _
      simp [Blocks.tree, Blocks.nodeAt]
  rw [List.flatMap_def, hnodes, ← List.flatMap_def]
  apply flatMap_predicatesAt_perm
  intro p hp
  obtain ⟨block, hblock, hpredicate⟩ := List.mem_filterMap.1 hp
  cases block with
  | predicate =>
      obtain rfl := Option.some.inj hpredicate
      obtain ⟨place, hplace⟩ := Option.isSome_iff_exists.1 (hread.attachable _ hblock).1
      obtain ⟨relation, hrelation, -⟩ := placeAmong_eq_some hplace
      exact ⟨place, (List.getElem?_eq_some_iff.1 hrelation).1, hplace⟩
  | relation | selection | link => exact absurd hpredicate (by simp [Block.predicate?])

/-- The filters that were read are those of the vertices that members bind. -/
theorem paired_asked (hread : Assemblable read) {bound : List Member}
    (hbound : (bound.map Member.node).Perm read.tree.nodes) :
    Paired (fun p source => source.2 = p.attached read.place?)
      (read.blocks.filterMap Block.predicate?) (Member.asked bound) := by
  have hasked : (Member.asked bound).map Prod.snd =
      (bound.map Member.node).flatMap Node.predicates := by
    simp [Member.asked, List.map_flatMap, List.flatMap_map, Function.comp_def]
  have hperm : ((read.blocks.filterMap Block.predicate?).map (Predicate.attached read.place?)).Perm
      ((Member.asked bound).map Prod.snd) := by
    rw [hasked]
    exact ((hbound.flatMap_right _).trans (predicates_nodes_perm hread)).symm
  have hsecond : Paired (fun p source => source.2 = p) ((Member.asked bound).map Prod.snd)
      (Member.asked bound) := by
    apply Paired.of_forall₂
    rw [List.forall₂_map_left_iff]
    exact List.forall₂_same.2 fun _ _ => rfl
  obtain ⟨sources, hforall, hsources⟩ := hsecond.perm_left hperm
  exact ⟨sources, List.forall₂_map_left_iff.1 hforall, hsources⟩

end Blocks

namespace Sql

/-- The selects of recursive tables, of each the anchor and the step. -/
def recursiveSelects (ctes : List Cte) : List Select :=
  ctes.flatMap fun cte =>
    match cte.content with
    | .select _ => []
    | .recursive anchor step _ => [anchor, step]

/-- All selects of a statement in the order in which they are written. -/
def Statement.selects (statement : Statement) : List Select :=
  statement.ctes.flatMap Cte.selects ++ [statement.body]

theorem selects_perm (ctes : List Cte) :
    (ctes.flatMap Cte.selects).Perm (plainSelects ctes ++ recursiveSelects ctes) := by
  induction ctes with
  | nil => exact .nil
  | cons cte ctes ih =>
      obtain ⟨name, content, isRecursive⟩ := cte
      cases content with
      | select query => exact ih.cons query
      | recursive anchor step combinator =>
          exact ((List.Perm.refl [anchor, step]).append ih).trans (List.perm_append_comm_assoc ..)

theorem Statement.selects_perm (statement : Statement) :
    statement.selects.Perm (statement.plainSelects ++ recursiveSelects statement.ctes) := by
  rw [selects, plainSelects, List.append_assoc]
  exact ((Sql.selects_perm statement.ctes).append_right _).trans
    ((List.append_assoc _ _ _).symm ▸ List.perm_append_comm.append_left _)

theorem map_snd_placed (selects : List Select) :
    (placed selects).map Prod.snd = selects.flatMap Select.filters := by
  simp [placed, List.map_flatMap, Function.comp_def]

end Sql

/-- The operand of the tag of a filter is a column of the member at the location of the tag. -/
theorem Members.Tagged.exists_member {members : Members} {schema : Schema} {scopeRoot : Node}
    {read : Blocks} {p : Predicate} {tag : Option Operand}
    (h : members.Tagged schema scopeRoot (p.attached read.place?) tag)
    (hnodes : ∀ m ∈ members.bound, m.node ∈ read.tree.nodes) {operand : Operand}
    (hoperand : operand ∈ tag) :
    ∃ ref tagged column, p.tag = some ref ∧ tagged ∈ members.bound ∧
      tagged.node.location = ref.location ∧
      schema.columnOf tagged.node.typeName ref.field = .ok column ∧
      operand = ⟨.column tagged.aliasName column, tagged.node.optionalWithin scopeRoot⟩ := by
  rcases h with ⟨ref, id, tagged, column, href, hid, hfind, hcolumn, rfl⟩ | ⟨-, rfl⟩
  · have href : p.tag = some ref := href
    have hplace : read.place? ref.location = some id := by
      rw [Predicate.attached, href] at hid
      exact hid
    have hmem := List.mem_of_find?_eq_some hfind
    have hsame : tagged.node.id = id := by simpa using List.find?_some hfind
    exact ⟨ref, tagged, column, href, hmem,
      Blocks.location_of_place? (hnodes tagged hmem) (hsame ▸ hplace), hcolumn,
      (Option.some.inj hoperand).symm⟩
  · exact absurd hoperand (by simp)

namespace Query

/-- The tag of a filter is read as a column of the vertex at its location. -/
def FilterRequest.TagRead (request : FilterRequest) (schema : Schema) (members : List Member)
    (select : Sql.Select) (tag : Option Operand) : Prop :=
  match request.tag with
  | none => tag = none
  | some ref => ∃ m ∈ members, m.node.location = ref.location ∧ m.BoundIn schema select ∧
      ∃ column nullable, schema.columnOf m.node.typeName ref.field = .ok column ∧
        tag = some ⟨.column m.aliasName column, nullable⟩

/-- A filter has become a condition.  The condition stands in the one select that binds the vertex
at the location of the filter, and compares the column of its field there with its tag and its
parameters; tests for a missing vertex may come before the comparison. -/
def FilterRequest.StandsAt (request : FilterRequest) (schema : Schema) (members : List Member)
    (selects : List Sql.Select) (place : Sql.Select × Sql.Expr) : Prop :=
  ∃ m ∈ members, request.location = some m.node.location ∧
    selects.filter (fun select => m.aliasName ∈ select.source.storedAliases) = [place.1] ∧
    m.BoundIn schema place.1 ∧
    ∃ operator column nullable tag comparison,
      FilterOperator.ofName? request.operator = some operator ∧
      schema.columnOf m.node.typeName request.field = .ok column ∧
      request.TagRead schema members place.1 tag ∧
      operator.comparison? (.column m.aliasName column)
        ((tag.map Operand.column).toList ++ request.params.map .parameter) = some comparison ∧
      place.2 = guarded (Operand.guardsOf ⟨.column m.aliasName column, nullable⟩ tag) comparison

namespace FilterRequest.Met

variable {request : FilterRequest} {read : Blocks} {schema : Schema} {bound : List Member}

/-- The tag of a filter that was read is read from the vertex at its location. -/
theorem tagRead {p : Predicate} (h : request.Met p)
    (hnodes : ∀ m ∈ bound, m.node ∈ read.tree.nodes) {members : Members} {scopeRoot : Node}
    {select : Sql.Select} (hbound : ∀ m ∈ members.bound, m ∈ bound ∧ m.BoundIn schema select)
    {tag : Option Operand} (htag : members.Tagged schema scopeRoot (p.attached read.place?) tag)
    (hsome : tag.isSome ↔ p.tag.isSome) : request.TagRead schema bound select tag := by
  unfold TagRead
  rw [h.tag]
  cases hp : p.tag with
  | none =>
      rw [hp] at hsome
      simpa using hsome
  | some ref =>
      obtain ⟨operand, hoperand⟩ := Option.isSome_iff_exists.1 (hsome.2 (hp ▸ rfl))
      obtain ⟨other, tagged, column, hother, hmem, hlocation, hcolumn, rfl⟩ :=
        htag.exists_member (fun m hm => hnodes m (hbound m hm).1) hoperand
      obtain rfl := Option.some.inj (hother.symm.trans hp)
      obtain ⟨hm, hin⟩ := hbound tagged hmem
      exact ⟨tagged, hm, hlocation, hin, column, _, hcolumn, hoperand⟩

/-- A filter that was read stands where the condition stands that was made from it. -/
theorem standsAt {p : Predicate} (h : request.Met p)
    (hnodes : ∀ m ∈ bound, m.node ∈ read.tree.nodes) {source : Member × NodePredicate}
    (hsource : source.2 = p.attached read.place?) {place : Sql.Select × Sql.Expr}
    (hstands : StandsFor schema bound source place) {selects : List Sql.Select}
    (hplace : place ∈ Sql.placed selects)
    (hone : ∀ m ∈ bound, ∃ select,
      selects.filter (fun select => m.aliasName ∈ select.source.storedAliases) = [select]) :
    request.StandsAt schema bound selects place := by
  obtain ⟨m, attached⟩ := source
  obtain rfl : attached = p.attached read.place? := hsource
  obtain ⟨hpredicate, members, scopeRoot, hmember, hbound, -, hfilter⟩ := hstands
  obtain ⟨hm, hin⟩ := hbound m hmember
  obtain ⟨column, tag, comparison, hcolumn, htag, hsome, hcomparison, hcondition⟩ :=
    Members.exists_of_filter_eq_ok hfilter
  have hlocation : p.site.location = m.node.location :=
    (Blocks.location_of_mem_predicates (hnodes m hm) hpredicate).1
  have hselect : selects.filter (fun select => m.aliasName ∈ select.source.storedAliases) =
      [place.1] := by
    obtain ⟨select, hselect⟩ := hone m hm
    obtain ⟨other, hother, hconditions⟩ := List.mem_flatMap.1 hplace
    obtain ⟨condition, -, rfl⟩ := List.mem_map.1 hconditions
    have hmem : other ∈ selects.filter fun select => m.aliasName ∈ select.source.storedAliases :=
      List.mem_filter.2 ⟨hother, by simpa using hin.mem_storedAliases⟩
    rw [hselect] at hmem ⊢
    rw [List.mem_singleton.1 hmem]
  refine ⟨m, hm, h.location.trans (congrArg some hlocation), hselect, hin, p.operator, column, _,
    tag, comparison, h.operator, ?_, h.tagRead hnodes hbound htag hsome, ?_, hcondition⟩
  · rw [h.field]
    exact hcolumn
  · rw [h.params]
    exact hcomparison

end FilterRequest.Met

/-- The filters that a query asks for and the conditions of the selects outside the recursive tables
of its statement correspond one to one; all other conditions are those of recursive tables. -/
theorem exists_placement {query : Query} {target : Target} {statement : Sql.Statement}
    (h : query.compile target = .ok statement) :
    ∃ tree members, query.tree = .ok tree ∧ tree.members target = .ok members ∧
      tree.BoundBy target.schema statement.plainSelects members ∧
      ∃ places : List (Sql.Select × Sql.Expr),
        List.Forall₂ (fun request place =>
          request.StandsAt target.schema members statement.plainSelects place)
          query.requests places ∧
        places.Perm (Sql.placed statement.plainSelects) ∧
        (statement.selects.flatMap Sql.Select.filters).Perm
          (places.map Prod.snd ++
            (Sql.recursiveSelects statement.ctes).flatMap Sql.Select.filters) := by
  obtain ⟨read, tree, emission, hblocks, hofBlocks, htree, hemission, hmembers, hctes, hbody⟩ :=
    exists_of_compile_eq_ok h
  have hbound := QueryTree.boundBy_of_emission hofBlocks hemission
  obtain ⟨hassemblable, rfl⟩ := ofBlocks_eq_ok_iff.1 hofBlocks
  have hselects : statement.plainSelects =
      Sql.plainSelects emission.ctes ++ [emission.query.select] := by
    rw [Sql.Statement.plainSelects, hctes, hbody]
  rw [← hselects] at hbound
  have hnodes : ∀ m ∈ emission.bound, m.node ∈ read.tree.nodes :=
    fun m hm => hbound.nodes.subset (List.mem_map_of_mem hm)
  have hplaces : Paired (StandsFor target.schema emission.bound) (Member.asked emission.bound)
      (Sql.placed statement.plainSelects) := by
    rw [hselects]
    obtain ⟨root, made, later, -, hmade, -, rfl⟩ := QueryTree.exists_of_emission_eq_ok hemission
    -- The sort of the outputs changes the columns of the last select only.
    exact places_of_emitScope hmade _
  have hread : Paired FilterRequest.Met query.requests (read.blocks.filterMap Block.predicate?) :=
    .of_forall₂ (reading_of_blocks hblocks).met
  have hpaired := (hread.trans (Blocks.paired_asked hassemblable hbound.nodes)).trans hplaces
  obtain ⟨places, hforall, hperm⟩ := hpaired.imp_of_mem
    (S := fun request place =>
      request.StandsAt target.schema emission.bound statement.plainSelects place) (by
    rintro request place hplace ⟨source, ⟨p, hmet, hsource⟩, hstands⟩
    refine hmet.standsAt hnodes hsource hstands hplace fun m hm => ?_
    obtain ⟨select, hselect, -⟩ := hbound.select m hm
    exact ⟨select, hselect⟩)
  refine ⟨read.tree, emission.bound, htree, hmembers, hbound, places, hforall, hperm, ?_⟩
  refine (statement.selects_perm.flatMap_right _).trans ?_
  rw [List.flatMap_append, ← Sql.map_snd_placed statement.plainSelects]
  exact (hperm.map Prod.snd).symm.append_right _

theorem exists_placement_pedigree :
    ∃ statement, (ofPattern pedigree).compile farm = .ok statement ∧
      ∃ (members : List Member) (places : List (Sql.Select × Sql.Expr)),
        List.Forall₂ (fun request place =>
          request.StandsAt farm.schema members statement.plainSelects place)
          (ofPattern pedigree).requests places ∧
        places.Perm (Sql.placed statement.plainSelects) := by
  obtain ⟨statement, hstatement⟩ := exists_compile_pedigree
  obtain ⟨tree, members, -, -, -, places, hforall, hperm, -⟩ := exists_placement hstatement
  exact ⟨statement, hstatement, members, places, hforall, hperm⟩

end Query

end TraversalSql
