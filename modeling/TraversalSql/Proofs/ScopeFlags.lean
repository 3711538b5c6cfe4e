import TraversalSql.Compile
import TraversalSql.Proofs.PatternTree
import TraversalSql.Proofs.ScopeNesting
import TraversalSql.Proofs.Scopes

/-!
The scope flags of a tree.  A vertex lies in the scopes of the vertex from which it is reached and
in the one that is opened for it, in which the other vertex does not lie.  So its flags tell which
of its ancestors were reached by an optional crossing or by a recursion, and neither of the two is
found below another one of its kind.
-/

namespace TraversalSql

open Outcome

/-- The crossing that an instruction makes. -/
def Instruction.crossing? : Instruction → Option Crossing
  | .traverse traversal optional => some ⟨traversal, if optional then .optional else .mandatory⟩
  | .recurse traversal depth => some ⟨traversal, .recurse depth⟩
  | .fold traversal => some ⟨traversal, .fold⟩
  | _ => none

/-- Open a scope if there is one to open. -/
def Walk.opening (walk : Walk) : Option ScopeKind → Except QueryError Walk
  | none => .ok walk
  | some kind => walk.openScope kind

/-- A scope is opened only outside its kind, and leaves the others as they are. -/
theorem Walk.isInside_of_opening {walk opened : Walk} {scope : Option ScopeKind}
    (h : walk.opening scope = .ok opened) (kind : ScopeKind) :
    (opened.isInside kind ↔ walk.isInside kind ∨ scope = some kind) ∧
      (scope = some kind → ¬ walk.isInside kind) := by
  cases scope with
  | none =>
      obtain rfl := Except.ok.inj h
      simp
  | some opens =>
      obtain ⟨hclosed, openedAt, -, rfl⟩ := openScope_eq_ok_iff.1 h
      refine ⟨?_, ?_⟩
      · simp [isInside, or_comm]
      · rintro ⟨⟩
        simp [hclosed]

/-- A vertex is reached from another one: it is one step further, and lies in the same scopes and in
the one that is opened for it, in which the other one does not lie.  Folds are left out. -/
structure Relation.Extends (above below : Relation) (scope : Option ScopeKind) : Prop where
  parent : below.location.parent? = some above.location
  inside : ∀ kind ≠ ScopeKind.fold,
    (below.site.isInside kind ↔ above.site.isInside kind ∨ scope = some kind)
  outside : ∀ kind ≠ ScopeKind.fold, scope = some kind → ¬ above.site.isInside kind

/-- A vertex to which a crossing leads, at the location marked next and from one of some others. -/
structure Crossing.LeadsTo (crossing : Crossing × Option Location) (others : List Relation)
    (relation : Relation) : Prop where
  location : crossing.2 = some relation.location
  kind : relation.kind = crossing.1.kind.relationKind
  above : ∃ above ∈ others, above.Extends relation crossing.1.kind.scope?

theorem Crossing.LeadsTo.mono {crossing : Crossing × Option Location} {others more : List Relation}
    {relation : Relation} (h : LeadsTo crossing others relation) (hmore : others ⊆ more) :
    LeadsTo crossing more relation := by
  obtain ⟨above, habove, hextends⟩ := h.above
  exact ⟨h.location, h.kind, above, hmore habove, hextends⟩

namespace Query

/-- The crossings that instructions make, each with the location marked next. -/
def crossingsOf : List Instruction → List (Crossing × Option Location)
  | [] => []
  | instruction :: rest =>
      (instruction.crossing?.map (·, nextMarked? (instruction :: rest))).toList ++ crossingsOf rest

def crossings (query : Query) : List (Crossing × Option Location) :=
  crossingsOf query.instructions

/-- The vertex at a location is reached by an optional crossing. -/
def OptionalAt (query : Query) (location : Location) : Prop :=
  ∃ traversal, (⟨traversal, .optional⟩, some location) ∈ query.crossings

/-- The vertices to which crossings lead, among some. -/
def crossed (relations : List Relation) : List Relation :=
  relations.filter fun relation => relation.kind != .root

theorem crossed_append (first second : List Relation) :
    crossed (first ++ second) = crossed first ++ crossed second :=
  List.filter_append _ _

/-- A crossing opens its scope and enters a vertex one step further. -/
theorem exists_entered_of_crossing? {types : TypeTable} {index : Nat} {marked : Option Location}
    {walk after : Walk} {instruction : Instruction} {blocks : List Block} {crossing : Crossing}
    (hcrossing : instruction.crossing? = some crossing)
    (h : readInstruction types index marked walk instruction = .ok (blocks, after)) :
    ∃ relation current opened, blocks.filterMap Block.relation? = [relation] ∧
      marked = some relation.location ∧ relation.kind = crossing.kind.relationKind ∧
      walk.current = .ok current ∧ relation.location.parent? = some current ∧
      walk.opening crossing.kind.scope? = .ok opened ∧
      opened.enter types relation.location = .ok (relation.site, after) := by
  cases instruction with
  | traverse traversal optional =>
      obtain rfl := Option.some.inj hcrossing
      simp only [readInstruction, bind_eq_ok_iff, needLocation_eq_ok_iff] at h
      obtain ⟨location, rfl, _, hstep, h⟩ := h
      obtain ⟨current, hcurrent, hparent⟩ := checkStep_eq_ok_iff.1 hstep
      cases optional with
      | false =>
          simp only [Bool.false_eq_true, if_false, bind_eq_ok_iff, pure_eq_ok_iff,
            Prod.mk.injEq] at h
          obtain ⟨_, rfl, ⟨block, entered⟩, henter, rfl, rfl⟩ := h
          obtain ⟨relation, rfl, rfl, hentered, hsite⟩ := exists_of_enterRelation henter
          exact ⟨relation, current, walk, rfl, rfl, hentered.kind, hcurrent, hparent, rfl, hsite⟩
      | true =>
          simp only [if_true, bind_eq_ok_iff, pure_eq_ok_iff, Prod.mk.injEq] at h
          obtain ⟨opened, hopened, ⟨block, entered⟩, henter, rfl, rfl⟩ := h
          obtain ⟨relation, rfl, rfl, hentered, hsite⟩ := exists_of_enterRelation henter
          exact ⟨relation, current, opened, rfl, rfl, hentered.kind, hcurrent, hparent, hopened,
            hsite⟩
  | recurse traversal depth =>
      obtain rfl := Option.some.inj hcrossing
      simp only [readInstruction, bind_eq_ok_iff, needLocation_eq_ok_iff, pure_eq_ok_iff,
        Prod.mk.injEq] at h
      obtain ⟨location, rfl, _, hstep, site, -, opened, hopened, ⟨block, entered⟩, henter, rfl,
        rfl⟩ := h
      obtain ⟨current, hcurrent, hparent⟩ := checkStep_eq_ok_iff.1 hstep
      obtain ⟨relation, rfl, rfl, hentered, hsite⟩ := exists_of_enterRelation henter
      exact ⟨relation, current, opened, rfl, rfl, hentered.kind, hcurrent, hparent, hopened, hsite⟩
  | fold traversal =>
      obtain rfl := Option.some.inj hcrossing
      simp only [readInstruction, bind_eq_ok_iff, needLocation_eq_ok_iff, pure_eq_ok_iff,
        Prod.mk.injEq] at h
      obtain ⟨location, rfl, _, hstep, opened, hopened, ⟨block, entered⟩, henter, rfl, rfl⟩ := h
      obtain ⟨current, hcurrent, hparent⟩ := checkStep_eq_ok_iff.1 hstep
      obtain ⟨relation, rfl, rfl, hentered, hsite⟩ := exists_of_enterRelation henter
      exact ⟨relation, current, opened, rfl, rfl, hentered.kind, hcurrent, hparent, hopened, hsite⟩
  | _ => exact absurd hcrossing (by simp [Instruction.crossing?])

/-- What one instruction does to a walk, and the vertex that it enters if it enters one. -/
inductive Effect (types : TypeTable) (marked : Option Location) (walk : Walk) :
    Instruction → List Relation → Walk → Prop
  | start {startClass : String} {relation : Relation} {after : Walk}
      (hmarked : marked = some relation.location) (hroot : relation.kind = .root)
      (henter : walk.enter types relation.location = .ok (relation.site, after)) :
      Effect types marked walk (.start startClass) [relation] after
  | cross {instruction : Instruction} {crossing : Crossing} {relation : Relation}
      {current : Location} {opened after : Walk}
      (hcrossing : instruction.crossing? = some crossing)
      (hmarked : marked = some relation.location)
      (hkind : relation.kind = crossing.kind.relationKind)
      (hcurrent : walk.current = .ok current)
      (hparent : relation.location.parent? = some current)
      (hopened : walk.opening crossing.kind.scope? = .ok opened)
      (henter : opened.enter types relation.location = .ok (relation.site, after)) :
      Effect types marked walk instruction [relation] after
  | unfold {location : Location} {left after : Walk} (hleave : walk.leave = .ok (location, left))
      (hclose : left.closeScope .fold = .ok after) : Effect types marked walk .unfold [] after
  | backtrack {location : Location} {optional : Bool} {after : Walk}
      (hback : walk.backtrack location optional = .ok after) :
      Effect types marked walk (.backtrack location optional) [] after
  | mark {location : Location} : Effect types marked walk (.mark location) [] walk
  | filter {field operator : String} {params : List String} {tag : Option FieldRef} :
      Effect types marked walk (.filter field operator params tag) [] walk
  | output {field aliasName : String} : Effect types marked walk (.output field aliasName) [] walk

theorem effect_of_readInstruction {types : TypeTable} {index : Nat} {marked : Option Location}
    {walk after : Walk} {instruction : Instruction} {blocks : List Block}
    (h : readInstruction types index marked walk instruction = .ok (blocks, after)) :
    Effect types marked walk instruction (blocks.filterMap Block.relation?) after := by
  cases hcrossing : instruction.crossing? with
  | some crossing =>
      obtain ⟨relation, current, opened, hblocks, hmarked, hkind, hcurrent, hparent, hopened,
        henter⟩ := exists_entered_of_crossing? hcrossing h
      rw [hblocks]
      exact .cross hcrossing hmarked hkind hcurrent hparent hopened henter
  | none =>
      cases instruction with
      | traverse | recurse | fold => exact absurd hcrossing (by simp [Instruction.crossing?])
      | start startClass =>
          simp only [readInstruction, bind_eq_ok_iff, needLocation_eq_ok_iff, pure_eq_ok_iff,
            Prod.mk.injEq] at h
          obtain ⟨location, rfl, ⟨block, entered⟩, henter, rfl, rfl⟩ := h
          obtain ⟨relation, rfl, rfl, hentered, hsite⟩ := exists_of_enterRelation henter
          exact .start rfl hentered.kind hsite
      | unfold =>
          simp only [readInstruction, bind_eq_ok_iff, pure_eq_ok_iff, Prod.mk.injEq] at h
          obtain ⟨⟨location, left⟩, hleave, closed, hclosed, rfl, rfl⟩ := h
          exact .unfold hleave hclosed
      | backtrack location optional =>
          simp only [readInstruction, bind_eq_ok_iff, pure_eq_ok_iff, Prod.mk.injEq] at h
          obtain ⟨back, hback, rfl, rfl⟩ := h
          exact .backtrack hback
      | mark location =>
          simp only [readInstruction, bind_eq_ok_iff, throw_bind] at h
          obtain ⟨current, -, h⟩ := h
          split at h
          · simp [throw_eq_ok_iff] at h
          · obtain ⟨rfl, rfl⟩ := Prod.mk.inj (pure_eq_ok_iff.1 h)
            exact .mark
      | filter field operator params tag =>
          simp only [readInstruction, bind_eq_ok_iff, needLocation_eq_ok_iff, throw_bind] at h
          obtain ⟨location, rfl, site, hsite, h⟩ := h
          split at h
          · split at h
            · split at h
              · simp [throw_eq_ok_iff] at h
              · obtain ⟨rfl, rfl⟩ := Prod.mk.inj (pure_eq_ok_iff.1 h)
                exact .filter
            · obtain ⟨rfl, rfl⟩ := Prod.mk.inj (pure_eq_ok_iff.1 h)
              exact .filter
          · simp [throw_eq_ok_iff] at h
      | output field aliasName =>
          simp only [readInstruction, bind_eq_ok_iff, needLocation_eq_ok_iff, pure_eq_ok_iff,
            Prod.mk.injEq] at h
          obtain ⟨location, rfl, site, -, rfl, rfl⟩ := h
          exact .output
      | result fields => exact absurd h (by simp [readInstruction])

/-- One instruction enters the vertex to which its crossing leads, and no other one unless it starts
the query. -/
theorem leadsTo_of_readInstruction {types : TypeTable} {index : Nat} {marked : Option Location}
    {walk after : Walk} {instruction : Instruction} {blocks : List Block} {earlier : List Relation}
    (hrecorded : walk.Recorded types) (hwalk : walk.Nested earlier walk.path.length)
    (h : readInstruction types index marked walk instruction = .ok (blocks, after)) :
    List.Forall₂ (Crossing.LeadsTo · earlier) (instruction.crossing?.map (·, marked)).toList
      (crossed (blocks.filterMap Block.relation?)) := by
  cases hcrossing : instruction.crossing? with
  | none =>
      have hnone : crossed (blocks.filterMap Block.relation?) = [] := by
        cases (readAs_of_readInstruction hrecorded h).1 with
        | start hentered => simp [crossed, Block.relation?, hentered.kind]
        | traverse | recurse | fold => exact absurd hcrossing (by simp [Instruction.crossing?])
        | _ => rfl
      rw [hnone]
      exact .nil
  | some crossing =>
      obtain ⟨relation, current, opened, hblocks, hmarked, hkind, hcurrent, hparent, hopened,
        henter⟩ := exists_entered_of_crossing? hcrossing h
      obtain ⟨above, habove, hlocation, hflags⟩ := hwalk.exists_current hcurrent
      have hentered : crossed [relation] = [relation] := by
        cases hcase : crossing.kind <;>
          simp [crossed, hkind, hcase, CrossingKind.relationKind]
      rw [hblocks, hentered]
      refine .cons ⟨hmarked, hkind, above, habove, ?_, ?_, ?_⟩ .nil
      · rw [hparent, hlocation]
      · intro kind hfold
        rw [Walk.isInside_of_enter henter, hflags kind hfold]
        exact (Walk.isInside_of_opening hopened kind).1
      · intro kind hfold hscope
        rw [hflags kind hfold]
        exact (Walk.isInside_of_opening hopened kind).2 hscope

/-- The crossings of the instructions lead to the vertices that are read, one by one. -/
theorem leadsTo_of_readFrom {types : TypeTable} {index : Nat} {walk after : Walk}
    {instructions : List Instruction} {read : Blocks} {earlier : List Relation}
    (hrecorded : walk.Recorded types) (hwalk : walk.Nested earlier walk.path.length)
    (h : readFrom types index walk instructions = .ok (read, after)) :
    List.Forall₂ (Crossing.LeadsTo · (earlier ++ read.relations)) (crossingsOf instructions)
      (crossed read.relations) := by
  refine readFrom_induction (motive := fun walk instructions read _ => ∀ earlier,
    walk.Recorded types → walk.Nested earlier walk.path.length →
      List.Forall₂ (Crossing.LeadsTo · (earlier ++ read.relations)) (crossingsOf instructions)
        (crossed read.relations)) ?nil ?result ?cons h earlier hrecorded hwalk
  case nil => exact fun _ _ _ _ => .nil
  case result => exact fun _ _ _ _ _ => .nil
  case cons =>
    intro index walk between after instruction rest blocks read hfirst ih earlier hrecorded hwalk
    have hmoves := (readAs_of_readInstruction hrecorded hfirst).2
    have hhere := leadsTo_of_readInstruction hrecorded hwalk hfirst
    have hlater := ih _ (hmoves.recorded hrecorded) (hmoves.nested hwalk).1
    rw [List.append_assoc] at hlater
    have hread : Blocks.relations { read with blocks := blocks ++ read.blocks } =
        blocks.filterMap Block.relation? ++ read.relations := List.filterMap_append
    rw [hread, crossed_append, crossingsOf]
    refine List.rel_append ?_ hlater
    exact hhere.imp fun _ _ hleads => hleads.mono (List.subset_append_left _ _)

theorem leadsTo_of_blocks {query : Query} {read : Blocks} (h : query.blocks = .ok read) :
    List.Forall₂ (Crossing.LeadsTo · read.relations) query.crossings (crossed read.relations) := by
  obtain ⟨-, walk, hread⟩ := exists_readFrom_of_blocks h
  exact leadsTo_of_readFrom (Walk.recorded_start _) (Walk.nested_start []) hread

/-- The first vertex of a query is the one at which it starts, and lies in no scope. -/
theorem exists_first_of_blocks {query : Query} {read : Blocks} (h : query.blocks = .ok read) :
    ∃ first, read.relations[0]? = some first ∧ first.kind = .root ∧
      ∀ kind, first.site.isInside kind = false := by
  obtain ⟨hstart, walk, hread⟩ := exists_readFrom_of_blocks h
  generalize query.instructions = instructions at hstart hread
  cases instructions with
  | nil => exact absurd hstart (by simp)
  | cons instruction rest =>
      cases instruction with
      | start startClass =>
          simp only [readFrom, readInstruction, bind_eq_ok_iff, pure_eq_ok_iff] at hread
          obtain ⟨_, ⟨location, -, ⟨block, entered⟩, henter, rfl⟩, ⟨below, last⟩, -, hread⟩ := hread
          obtain ⟨relation, rfl, rfl, hentered, hsite⟩ := exists_of_enterRelation henter
          obtain ⟨rfl, -⟩ := Prod.mk.inj hread
          refine ⟨relation, rfl, hentered.kind, fun kind => ?_⟩
          rw [Walk.isInside_of_enter hsite]
          rfl
      | _ => exact absurd hstart (by simp [Instruction.isStart])

end Query

namespace QueryTree

/-- A node hangs directly below another one. -/
structure Hangs (tree : QueryTree) (above below : Node) : Prop where
  above_mem : above ∈ tree.nodes
  below_mem : below ∈ tree.nodes
  parent : below.parent = some above.id

/-- What holds of the first node, and goes from a node to those that hang below it, holds of all. -/
theorem forall_nodes {tree : QueryTree} (htree : Rooted tree.nodes) {P : Node → Prop}
    (hfirst : ∀ node, tree.nodes[0]? = some node → P node)
    (hstep : ∀ above below, tree.Hangs above below → P above → P below) :
    ∀ node ∈ tree.nodes, P node := by
  suffices hbefore : ∀ before after, tree.nodes = before ++ after → ∀ node ∈ before, P node from
    hbefore tree.nodes [] (List.append_nil _).symm
  intro before
  -- The nodes are taken in their order, in which each comes after the one from which it hangs.
  induction before using List.reverseRecOn with
  | nil => simp
  | append_singleton earlier last ih =>
      intro after hsplit node hnode
      rw [List.append_assoc, List.singleton_append] at hsplit
      have hearlier := ih (last :: after) hsplit
      rcases List.mem_append.1 hnode with hnode | hnode
      · exact hearlier node hnode
      · obtain rfl := List.mem_singleton.1 hnode
        by_cases hnone : earlier = []
        · exact hfirst node (by simp [hsplit, hnone])
        · obtain ⟨-, above, habove, hparent⟩ := htree.hung earlier node after hsplit hnone
          refine hstep above node ⟨?_, ?_, hparent⟩ (hearlier above habove)
          · simp [hsplit, habove]
          · simp [hsplit]

/-- Nodes that lie inside some kind of scope that may be left anywhere: the first one does not, and
any other one does if such a scope is opened for it, or if the node above it does and no scope was
left since, but not both. -/
structure InheritsUntil (tree : QueryTree) (inside opens : Node → Prop) (left : Node → Nat) :
    Prop where
  first : ∀ node, tree.nodes[0]? = some node → ¬ inside node ∧ ¬ opens node
  early : ∀ above below, tree.Hangs above below → left above ≤ left below
  inside_iff : ∀ above below, tree.Hangs above below →
    (inside below ↔ inside above ∧ left above = left below ∨ opens below)
  outside : ∀ above below, tree.Hangs above below → opens below →
    ¬ (inside above ∧ left above = left below)

namespace InheritsUntil

variable {tree : QueryTree} {inside opens : Node → Prop} {left : Node → Nat}

theorem early_of_above (h : tree.InheritsUntil inside opens left) {above below : Node}
    (hbelow : Relation.ReflTransGen tree.Hangs above below) : left above ≤ left below := by
  induction hbelow with
  | refl => exact Nat.le_refl _
  | tail _ hhangs ih => exact Nat.le_trans ih (h.early _ _ hhangs)

theorem inside_of_opens (htree : Rooted tree.nodes) (h : tree.InheritsUntil inside opens left) :
    ∀ node ∈ tree.nodes, opens node → inside node := by
  refine forall_nodes htree ?_ ?_
  · intro node hnode hopens
    exact absurd hopens (h.first node hnode).2
  · intro above below hhangs _ hopens
    exact (h.inside_iff above below hhangs).2 (.inr hopens)

/-- What lies inside stays inside further down as long as no scope is left. -/
theorem inside_of_above (h : tree.InheritsUntil inside opens left) {above below : Node}
    (hbelow : Relation.ReflTransGen tree.Hangs above below) (hleft : left above = left below)
    (hinside : inside above) : inside below := by
  induction hbelow with
  | refl => exact hinside
  | @tail between below hbetween hhangs ih =>
      have hfirst := h.early_of_above hbetween
      have hlast := h.early between below hhangs
      have hsame : left above = left between := by omega
      exact (h.inside_iff between below hhangs).2 (.inl ⟨ih hsame, by omega⟩)

/-- A node lies inside exactly if a scope was opened for it or for a node above it and not left
since. -/
theorem inside_iff_exists (htree : Rooted tree.nodes) (h : tree.InheritsUntil inside opens left) :
    ∀ node ∈ tree.nodes, (inside node ↔ ∃ above ∈ tree.nodes,
      Relation.ReflTransGen tree.Hangs above node ∧ opens above ∧ left above = left node) := by
  intro node hnode
  constructor
  · revert node
    refine forall_nodes htree ?_ ?_
    · intro node hnode hinside
      exact absurd hinside (h.first node hnode).1
    · intro above below hhangs ih hinside
      rcases (h.inside_iff above below hhangs).1 hinside with ⟨hinside, hleft⟩ | hopens
      · obtain ⟨top, htop, habove, hopens, hsame⟩ := ih hinside
        exact ⟨top, htop, habove.tail hhangs, hopens, hsame.trans hleft⟩
      · exact ⟨below, hhangs.below_mem, .refl, hopens, rfl⟩
  · rintro ⟨above, habove, hbelow, hopens, hleft⟩
    exact h.inside_of_above hbelow hleft (h.inside_of_opens htree above habove hopens)

/-- Between two nodes for which scopes were opened, one below the other, a scope was left. -/
theorem lt_of_opens_below (htree : Rooted tree.nodes) (h : tree.InheritsUntil inside opens left)
    {above below : Node} (hbelow : Relation.TransGen tree.Hangs above below)
    (hopens : opens above) (hagain : opens below) : left above < left below := by
  obtain ⟨between, hbetween, hhangs⟩ := Relation.TransGen.tail'_iff.1 hbelow
  have habove : above ∈ tree.nodes := by
    obtain ⟨next, hnext, -⟩ := Relation.TransGen.head'_iff.1 hbelow
    exact hnext.above_mem
  have hfirst := h.early_of_above hbetween
  have hlast := h.early between below hhangs
  by_contra hnot
  have hsame : left above = left between ∧ left between = left below := by omega
  have hinside := h.inside_of_above hbetween hsame.1 (h.inside_of_opens htree above habove hopens)
  exact h.outside between below hhangs hagain ⟨hinside, hsame.2⟩

end InheritsUntil

/-- Nodes that lie inside some kind of scope: the first one does not, and any other one does if the
node above it does or if such a scope is opened for it, but not both. -/
structure Inherits (tree : QueryTree) (inside opens : Node → Prop) : Prop where
  first : ∀ node, tree.nodes[0]? = some node → ¬ inside node ∧ ¬ opens node
  inside_iff : ∀ above below, tree.Hangs above below → (inside below ↔ inside above ∨ opens below)
  outside : ∀ above below, tree.Hangs above below → opens below → ¬ inside above

namespace Inherits

variable {tree : QueryTree} {inside opens : Node → Prop}

theorem inheritsUntil (h : tree.Inherits inside opens) :
    tree.InheritsUntil inside opens fun _ => 0 where
  first := h.first
  early := fun _ _ _ => Nat.le_refl _
  inside_iff := by simpa using h.inside_iff
  outside := by simpa using h.outside

/-- A node lies inside exactly if a scope was opened for it or for a node above it. -/
theorem inside_iff_exists (htree : Rooted tree.nodes) (h : tree.Inherits inside opens) :
    ∀ node ∈ tree.nodes, (inside node ↔
      ∃ above ∈ tree.nodes, Relation.ReflTransGen tree.Hangs above node ∧ opens above) := by
  simpa using h.inheritsUntil.inside_iff_exists htree

/-- No scope is opened for a node below one for which one was opened. -/
theorem not_opens_below (htree : Rooted tree.nodes) (h : tree.Inherits inside opens)
    {above below : Node} (hbelow : Relation.TransGen tree.Hangs above below)
    (hopens : opens above) : ¬ opens below := by
  intro hagain
  exact Nat.lt_irrefl _ (h.inheritsUntil.lt_of_opens_below htree hbelow hopens hagain)

end Inherits

/-- If no scope is left below its own node, what lies inside is inherited. -/
theorem InheritsUntil.inherits {tree : QueryTree} {inside opens : Node → Prop} {left : Node → Nat}
    (h : tree.InheritsUntil inside opens left)
    (hkept : ∀ above below, tree.Hangs above below → inside above → left above = left below) :
    tree.Inherits inside opens where
  first := h.first
  inside_iff := by
    intro above below hhangs
    rw [h.inside_iff above below hhangs]
    exact or_congr_left (and_iff_left_of_imp (hkept above below hhangs))
  outside := by
    intro above below hhangs hopens hinside
    exact h.outside above below hhangs hopens ⟨hinside, hkept above below hhangs hinside⟩

end QueryTree

namespace Query

variable {query : Query} {read : Blocks} {tree : QueryTree}

theorem tree_eq_ok_iff :
    query.tree = .ok tree ↔ ∃ read, query.blocks = .ok read ∧ Assemblable read ∧
      tree = read.tree := by
  simp only [Query.tree, bind_eq_ok_iff, ofBlocks_eq_ok_iff]

/-- A crossing to the location of a vertex is the one that leads to it. -/
theorem leadsTo_of_mem_crossings (hread : query.blocks = .ok read)
    (hplanted : Planted read.relations) {crossing : Crossing} {relation : Relation}
    (hrelation : relation ∈ read.relations)
    (h : (crossing, some relation.location) ∈ query.crossings) :
    relation.kind ≠ .root ∧
      Crossing.LeadsTo (crossing, some relation.location) read.relations relation := by
  obtain ⟨found, hfound, hleads⟩ := exists_right_of_forall₂ (leadsTo_of_blocks hread) h
  obtain ⟨hmem, hkind⟩ := List.mem_filter.1 hfound
  have hlocation : relation.location = found.location := Option.some.inj hleads.location
  obtain rfl := List.inj_on_of_nodup_map hplanted.distinct hrelation hmem hlocation
  exact ⟨by simpa using hkind, hleads⟩

theorem exists_mem_crossings (hread : query.blocks = .ok read) {relation : Relation}
    (hrelation : relation ∈ read.relations) (hkind : relation.kind ≠ .root) :
    ∃ crossing, (crossing, some relation.location) ∈ query.crossings := by
  have hcrossed : relation ∈ crossed read.relations :=
    List.mem_filter.2 ⟨hrelation, by simpa using hkind⟩
  obtain ⟨⟨crossing, location⟩, hmem, hleads⟩ :=
    exists_left_of_forall₂ (leadsTo_of_blocks hread) hcrossed
  exact ⟨crossing, hleads.location ▸ hmem⟩

/-- A crossing to the location of a node leads to its vertex from that of the node above it. -/
theorem extends_of_hangs (hread : query.blocks = .ok read) (hplanted : Planted read.relations)
    {above below : Node} (h : read.tree.Hangs above below) {crossing : Crossing}
    (hcrossing : (crossing, some below.location) ∈ query.crossings) :
    below.relation.kind = crossing.kind.relationKind ∧
      above.relation.Extends below.relation crossing.kind.scope? := by
  obtain ⟨-, hleads⟩ := leadsTo_of_mem_crossings hread hplanted
    (mem_relations_of_mem_tree h.below_mem) hcrossing
  obtain ⟨owner, howner, hextends⟩ := hleads.above
  have hsame := (hplanted.relation_eq_of_parent h.above_mem h.below_mem h.parent).2 owner howner
    hextends.parent
  exact ⟨hleads.kind, hsame ▸ hextends⟩

theorem exists_crossing_of_hangs (hread : query.blocks = .ok read)
    (hplanted : Planted read.relations) {above below : Node} (h : read.tree.Hangs above below) :
    ∃ crossing, (crossing, some below.location) ∈ query.crossings :=
  exists_mem_crossings hread (mem_relations_of_mem_tree h.below_mem)
    (hplanted.relation_eq_of_parent h.above_mem h.below_mem h.parent).1

/-- The first node lies in no scope, and no crossing leads to it. -/
theorem outside_of_first (hread : query.blocks = .ok read) (hplanted : Planted read.relations)
    {node : Node} (hnode : read.tree.nodes[0]? = some node) :
    node.relation.kind = .root ∧ (∀ kind, node.relation.site.isInside kind = false) ∧
      ∀ crossing, (crossing, some node.location) ∉ query.crossings := by
  obtain ⟨first, hfirst, hkind, hflags⟩ := exists_first_of_blocks hread
  have hsame : node.relation = first := by
    rw [Blocks.getElem?_nodes_tree, hfirst] at hnode
    exact Option.some.inj hnode ▸ rfl
  subst hsame
  refine ⟨hkind, hflags, fun crossing hcrossing => ?_⟩
  have hmem := List.mem_of_getElem? hfirst
  exact (leadsTo_of_mem_crossings hread hplanted hmem hcrossing).1 hkind

/-- Nodes lie inside optional crossings as their flags say. -/
theorem inherits_optional (hread : query.blocks = .ok read) (hplanted : Planted read.relations) :
    read.tree.Inherits (fun node => node.relation.site.inOptional = true)
      (fun node => query.OptionalAt node.location) where
  first := by
    intro node hnode
    obtain ⟨-, hflags, hnone⟩ := outside_of_first hread hplanted hnode
    refine ⟨by simpa [Site.isInside] using hflags .optional, ?_⟩
    rintro ⟨traversal, hcrossing⟩
    exact hnone _ hcrossing
  inside_iff := by
    intro above below hhangs
    constructor
    · intro hinside
      obtain ⟨⟨traversal, way⟩, hcrossing⟩ := exists_crossing_of_hangs hread hplanted hhangs
      obtain ⟨-, hextends⟩ := extends_of_hangs hread hplanted hhangs hcrossing
      refine ((hextends.inside .optional (by decide)).1 hinside).imp id fun hscope => ?_
      cases way with
      | optional => exact ⟨traversal, hcrossing⟩
      | mandatory | recurse | fold => exact absurd hscope (by simp [CrossingKind.scope?])
    · rintro (hinside | ⟨traversal, hcrossing⟩)
      · obtain ⟨crossing, hcrossing⟩ := exists_crossing_of_hangs hread hplanted hhangs
        obtain ⟨-, hextends⟩ := extends_of_hangs hread hplanted hhangs hcrossing
        exact (hextends.inside .optional (by decide)).2 (.inl hinside)
      · obtain ⟨-, hextends⟩ := extends_of_hangs hread hplanted hhangs hcrossing
        exact (hextends.inside .optional (by decide)).2 (.inr rfl)
  outside := by
    rintro above below hhangs ⟨traversal, hcrossing⟩
    obtain ⟨-, hextends⟩ := extends_of_hangs hread hplanted hhangs hcrossing
    exact hextends.outside .optional (by decide) rfl

/-- Nodes lie inside recursions as their flags say. -/
theorem inherits_recursion (hread : query.blocks = .ok read) (hplanted : Planted read.relations) :
    read.tree.Inherits (fun node => node.relation.site.inRecursion = true)
      (fun node => node.relation.kind.isRecursion = true) := by
  have hstep : ∀ above below, read.tree.Hangs above below →
      (below.relation.site.inRecursion ↔
        above.relation.site.inRecursion ∨ below.relation.kind.isRecursion) ∧
      (below.relation.kind.isRecursion → ¬ above.relation.site.inRecursion) := by
    intro above below hhangs
    obtain ⟨⟨traversal, way⟩, hcrossing⟩ := exists_crossing_of_hangs hread hplanted hhangs
    obtain ⟨hkind, hextends⟩ := extends_of_hangs hread hplanted hhangs hcrossing
    have hopens : below.relation.kind.isRecursion ↔ way.scope? = some .recursive := by
      rw [hkind]
      cases way <;> simp [CrossingKind.relationKind, CrossingKind.scope?, RelationKind.isRecursion]
    rw [hopens]
    exact ⟨hextends.inside .recursive (by decide), hextends.outside .recursive (by decide)⟩
  refine ⟨?_, fun above below h => (hstep above below h).1,
    fun above below h => (hstep above below h).2⟩
  intro node hnode
  obtain ⟨hkind, hflags, -⟩ := outside_of_first hread hplanted hnode
  exact ⟨by simpa [Site.isInside] using hflags .recursive,
    by simp [hkind, RelationKind.isRecursion]⟩

/-- The flags of a node tell which vertices lie on the way to it: it is flagged as optional exactly
if it or a node above it is reached by an optional crossing, and as recursive exactly if it or a
node above it is a recursion.  Neither an optional crossing nor a recursion lies below another
one. -/
theorem flagged_iff_exists_above (h : query.tree = .ok tree) :
    (∀ node ∈ tree.nodes,
      (node.relation.site.inOptional ↔ ∃ above ∈ tree.nodes,
        Relation.ReflTransGen tree.Hangs above node ∧ query.OptionalAt above.location) ∧
      (node.relation.site.inRecursion ↔ ∃ above ∈ tree.nodes,
        Relation.ReflTransGen tree.Hangs above node ∧ above.relation.kind.isRecursion)) ∧
    ∀ above below, Relation.TransGen tree.Hangs above below →
      ¬ (query.OptionalAt above.location ∧ query.OptionalAt below.location) ∧
      ¬ (above.relation.kind.isRecursion ∧ below.relation.kind.isRecursion) := by
  obtain ⟨read, hread, hassemblable, rfl⟩ := tree_eq_ok_iff.1 h
  have hplanted := hassemblable.planted
  have hrooted := Blocks.rooted_tree hplanted
  have hoptional := inherits_optional hread hplanted
  have hrecursion := inherits_recursion hread hplanted
  refine ⟨fun node hnode => ⟨?_, ?_⟩, fun above below hbelow => ⟨?_, ?_⟩⟩
  · exact hoptional.inside_iff_exists hrooted node hnode
  · exact hrecursion.inside_iff_exists hrooted node hnode
  · rintro ⟨habove, hagain⟩
    exact hoptional.not_opens_below hrooted hbelow habove hagain
  · rintro ⟨habove, hagain⟩
    exact hrecursion.not_opens_below hrooted hbelow habove hagain

/-- The sites of the keepers of ancestors are no recursion, but they lie below one. -/
theorem exists_recursion_above_kinship :
    (Query.mk Pattern.kinship.stream Pattern.kinship.types).tree = .ok Pattern.kinship.tree ∧
      ∃ node ∈ Pattern.kinship.tree.nodes, node.typeName = "Site" ∧
        ¬ node.relation.kind.isRecursion ∧ ∃ above ∈ Pattern.kinship.tree.nodes,
          Relation.ReflTransGen Pattern.kinship.tree.Hangs above node ∧
            above.relation.kind.isRecursion := by
  have htree : (Query.mk Pattern.kinship.stream Pattern.kinship.types).tree =
      .ok Pattern.kinship.tree := by cbv
  have hnode : ∃ node ∈ Pattern.kinship.tree.nodes, node.typeName = "Site" ∧
      ¬ node.relation.kind.isRecursion ∧ node.relation.site.inRecursion := by decide
  obtain ⟨node, hnode, htype, hkind, hinside⟩ := hnode
  exact ⟨htree, node, hnode, htype, hkind,
    ((flagged_iff_exists_above htree).1 node hnode).2.1 hinside⟩

end Query

end TraversalSql
