import TraversalSql.Proofs.FoldFlags
import TraversalSql.Proofs.Resolution

/-!
When a query that is read has no tree.  Reading enters every location once and steps only from
locations that it has entered, and its filters, tags and links stay on them.  So the vertices of a
query that starts once form a tree, and nothing but the list of what is given out can keep them from
being put together; a second start always does.
-/

namespace TraversalSql

open Outcome

/-- The field given out by a block that does so. -/
def Block.selection? : Block → Option Selection
  | .selection s => some s
  | _ => none

/-- A field that is given out on the way, in the form in which outputs are listed. -/
def Selection.output (selection : Selection) : String × FieldRef :=
  (selection.aliasName, ⟨selection.site.location, selection.field⟩)

theorem isListed_iff {outputs : List (String × FieldRef)} {selection : Selection} :
    QueryTree.isListed outputs selection ↔ selection.output ∈ outputs := by
  simp only [QueryTree.isListed, List.any_eq_true, Bool.and_eq_true, beq_iff_eq]
  constructor
  · rintro ⟨⟨aliasName, location, field⟩, hmem, ⟨rfl, rfl⟩, rfl⟩
    exact hmem
  · intro hmem
    exact ⟨_, hmem, ⟨rfl, rfl⟩, rfl⟩

namespace Walk

/-- A walk that has entered the locations of some vertices and no others, and whose path leads
through them. -/
structure Covers (walk : Walk) (relations : List Relation) : Prop where
  entered : ∀ location, walk.hasEntered location ↔ location ∈ relations.map Relation.location
  path : ∀ location ∈ walk.path, location ∈ relations.map Relation.location

theorem covers_start : start.Covers [] where
  entered := by simp [start, hasEntered, OrderedMap.contains]
  path := by simp [start]

namespace Covers

variable {walk after : Walk} {relations : List Relation} {location : Location}

theorem of_path_subset (h : walk.Covers relations) (hsites : after.sites = walk.sites)
    (hpath : after.path ⊆ walk.path) : after.Covers relations where
  entered location := by
    rw [← h.entered, hasEntered, hasEntered, hsites]
  path location hlocation := h.path location (hpath hlocation)

theorem opening (h : walk.Covers relations) {scope : Option ScopeKind}
    (hopened : walk.opening scope = .ok after) : after.Covers relations := by
  cases scope with
  | none =>
      obtain rfl := Except.ok.inj hopened
      exact h
  | some kind =>
      obtain ⟨-, openedAt, -, rfl⟩ := openScope_eq_ok_iff.1 hopened
      exact h.of_path_subset rfl (List.Subset.refl _)

theorem not_mem_of_enter (h : walk.Covers relations) {types : TypeTable} {site : Site}
    (henter : walk.enter types location = .ok (site, after)) :
    location ∉ relations.map Relation.location := by
  rw [← h.entered, hasEntered, (enter_eq_ok_iff.1 henter).1]
  exact Bool.false_ne_true

theorem enter (h : walk.Covers relations) {types : TypeTable} {relation : Relation}
    (henter : walk.enter types relation.location = .ok (relation.site, after)) :
    after.Covers (relations ++ [relation]) := by
  obtain ⟨-, typeName, outer, -, -, -, rfl⟩ := enter_eq_ok_iff.1 henter
  constructor
  · intro other
    rw [List.map_append, List.mem_append, ← h.entered, List.map_singleton, List.mem_singleton]
    by_cases hother : other = relation.location
    · simp [hother, hasEntered, OrderedMap.contains]
    · simp [hother, hasEntered, OrderedMap.contains, OrderedMap.find?_insert_of_ne]
  · intro other hother
    rw [List.map_append, List.mem_append, List.map_singleton, List.mem_singleton]
    rcases List.mem_cons.1 hother with rfl | hother
    · exact .inr rfl
    · exact .inl (h.path other hother)

/-- The walk is at one of the vertices. -/
theorem exists_of_current (h : walk.Covers relations) (hcurrent : walk.current = .ok location) :
    ∃ relation ∈ relations, relation.location = location := by
  obtain ⟨rest, hpath⟩ := current_eq_ok_iff.1 hcurrent
  exact List.mem_map.1 (h.path location (hpath ▸ List.mem_cons_self))

end Covers

end Walk

/-- Vertices that were entered one by one: no two share a location, and each at which the query does
not start is one step further than an earlier one. -/
structure Grown (relations : List Relation) : Prop where
  distinct : (relations.map Relation.location).Nodup
  reached : ∀ place relation, relations[place]? = some relation → relation.kind ≠ .root →
    ∃ above ∈ relations.take place, relation.location.parent? = some above.location

namespace Grown

variable {relations : List Relation} {relation : Relation}

theorem nil : Grown [] where
  distinct := by simp
  reached := by simp

theorem concat (h : Grown relations) (hnew : relation.location ∉ relations.map Relation.location)
    (hreached : relation.kind ≠ .root →
      ∃ above ∈ relations, relation.location.parent? = some above.location) :
    Grown (relations ++ [relation]) where
  distinct := by
    rw [List.map_append, List.map_singleton, List.nodup_append']
    exact ⟨h.distinct, List.nodup_singleton _, by simpa using hnew⟩
  reached place other hother hkind := by
    by_cases hplace : place < relations.length
    · rw [List.getElem?_append_left hplace] at hother
      rw [List.take_append_of_le_length (Nat.le_of_lt hplace)]
      exact h.reached place other hother hkind
    · have hlast : place = relations.length := by
        have := (List.getElem?_eq_some_iff.1 hother).1
        simp only [List.length_append, List.length_singleton] at this
        omega
      subst hlast
      obtain rfl : relation = other := by simpa using hother
      simpa using hreached hkind

/-- Vertices that were entered one by one form a tree exactly if the query starts only at the first
of them. -/
theorem planted_iff (h : Grown relations) :
    Planted relations ↔ ∀ relation ∈ relations.tail, relation.kind ≠ .root := by
  constructor
  · intro hplanted relation hrelation
    obtain ⟨place, hplace⟩ := List.getElem?_of_mem hrelation
    rw [List.getElem?_tail] at hplace
    exact (hplanted.exists_above (Nat.succ_ne_zero place) hplace).1
  · intro htail
    refine ⟨h.distinct, fun before relation after hsplit hbefore => ?_⟩
    have hkind : relation.kind ≠ .root := by
      apply htail
      rw [hsplit, List.tail_append_of_ne_nil hbefore]
      exact List.mem_append_right _ List.mem_cons_self
    refine ⟨hkind, ?_⟩
    simpa [hsplit] using h.reached before.length relation (by simp [hsplit]) hkind

end Grown

theorem Attachable.mono {relations others : List Relation} {block : Block}
    (h : Attachable (placeAmong relations) block)
    (hothers : relations.map Relation.location ⊆ others.map Relation.location) :
    Attachable (placeAmong others) block := by
  have hsome : ∀ {location}, (placeAmong relations location).isSome →
      (placeAmong others location).isSome := fun hlocation =>
    placeAmong_isSome_iff.2 (hothers (placeAmong_isSome_iff.1 hlocation))
  cases block with
  | predicate p => exact ⟨hsome h.1, fun tag htag => hsome (h.2 tag htag)⟩
  | link l => exact ⟨hsome h.1, hsome h.2⟩
  | relation | selection => exact trivial

namespace Query

/-- The fields that instructions give out on the way, each under its alias and with the location
marked next.  One behind the last mark has no location, and is not read. -/
def givenBy : List Instruction → List (String × FieldRef)
  | [] => []
  | .output field aliasName :: rest =>
      ((nextMarked? rest).map fun location => (aliasName, ⟨location, field⟩)).toList ++ givenBy rest
  | _ :: rest => givenBy rest

/-- The fields that a query gives out on the way. -/
def given (query : Query) : List (String × FieldRef) := givenBy query.instructions

/-- A query enters a location at some point. -/
def Enters (query : Query) (location : Location) : Prop :=
  some location ∈ entered query.instructions

instance (query : Query) (location : Location) : Decidable (query.Enters location) :=
  inferInstanceAs (Decidable (some location ∈ entered query.instructions))

section Steps

variable {types : TypeTable} {index : Nat} {marked : Option Location} {walk after : Walk}
  {instruction : Instruction} {earlier : List Relation}

theorem Effect.covers {relations : List Relation}
    (h : Effect types marked walk instruction relations after) (hwalk : walk.Covers earlier) :
    after.Covers (earlier ++ relations) := by
  cases h with
  | start _ _ henter => exact hwalk.enter henter
  | cross _ _ _ _ _ hopened henter => exact (hwalk.opening hopened).enter henter
  | unfold hleave hclose =>
      obtain ⟨rest, hpath, rfl⟩ := Walk.leave_eq_ok_iff.1 hleave
      obtain ⟨_, _, -, -, rfl⟩ := Walk.closeScope_eq_ok_iff.1 hclose
      rw [List.append_nil]
      exact hwalk.of_path_subset rfl (hpath ▸ List.subset_cons_self _ _)
  | backtrack hback =>
      obtain ⟨gone, rest, _, _, hpath, -, -, rfl⟩ := Walk.backtrack_eq_ok_iff.1 hback
      rw [List.append_nil]
      exact hwalk.of_path_subset rfl (hpath ▸ List.subset_cons_self _ _)
  | mark | filter | output => rwa [List.append_nil]

theorem Effect.grown {relations : List Relation}
    (h : Effect types marked walk instruction relations after) (hwalk : walk.Covers earlier)
    (hgrown : Grown earlier) : Grown (earlier ++ relations) := by
  cases h with
  | start _ hroot henter => exact hgrown.concat (hwalk.not_mem_of_enter henter) (absurd hroot)
  | cross _ _ _ hcurrent hparent hopened henter =>
      refine hgrown.concat ((hwalk.opening hopened).not_mem_of_enter henter) fun _ => ?_
      obtain ⟨above, habove, hlocation⟩ := hwalk.exists_of_current hcurrent
      exact ⟨above, habove, hlocation ▸ hparent⟩
  | unfold | backtrack | mark | filter | output => rwa [List.append_nil]

theorem mem_of_siteOf (hwalk : walk.Covers earlier) {location : Location} {site : Site}
    (h : siteOf walk location = .ok site) : location ∈ earlier.map Relation.location := by
  rw [← hwalk.entered]
  exact hasEntered_of_siteOf h

/-- A filter stays on locations that have been entered, with its tag. -/
theorem entered_of_filter {field operator : String} {params : List String} {tag : Option FieldRef}
    {blocks : List Block} (hrecorded : walk.Recorded types) (hwalk : walk.Covers earlier)
    (h : readInstruction types index marked walk (.filter field operator params tag) =
      .ok (blocks, after)) :
    ∀ block ∈ blocks, Attachable (placeAmong earlier) block := by
  simp only [readInstruction, bind_eq_ok_iff, needLocation_eq_ok_iff, throw_bind] at h
  obtain ⟨location, rfl, site, hsite, h⟩ := h
  have hhere : (placeAmong earlier site.location).isSome := by
    rw [location_of_siteOf hrecorded hsite]
    exact placeAmong_isSome_iff.2 (mem_of_siteOf hwalk hsite)
  cases hoperator : FilterOperator.ofName? operator with
  | none => simp [hoperator, throw_eq_ok_iff] at h
  | some registered =>
      simp only [hoperator] at h
      cases tag with
      | none =>
          obtain ⟨rfl, -⟩ := Prod.mk.inj (pure_eq_ok_iff.1 h)
          simpa [Attachable] using hhere
      | some tag =>
          dsimp only at h
          split at h
          · simp [throw_eq_ok_iff] at h
          · next hentered =>
            obtain ⟨rfl, -⟩ := Prod.mk.inj (pure_eq_ok_iff.1 h)
            have hthere : (placeAmong earlier tag.location).isSome := by
              rw [placeAmong_isSome_iff, ← hwalk.entered]
              simpa using hentered
            simpa [Attachable] using And.intro hhere hthere

/-- The link of a recursion leads from the current location to the one that is entered. -/
theorem entered_of_recurse {traversal : Traversal} {depth : Nat} {blocks : List Block}
    (hrecorded : walk.Recorded types) (hwalk : walk.Covers earlier)
    (h : readInstruction types index marked walk (.recurse traversal depth) = .ok (blocks, after)) :
    ∀ block ∈ blocks,
      Attachable (placeAmong (earlier ++ blocks.filterMap Block.relation?)) block := by
  simp only [readInstruction, bind_eq_ok_iff, needLocation_eq_ok_iff, pure_eq_ok_iff,
    Prod.mk.injEq] at h
  obtain ⟨location, rfl, _, hstep, site, hsite, opened, -, ⟨block, _⟩, henter, rfl, -⟩ := h
  obtain ⟨current, hcurrent, -⟩ := checkStep_eq_ok_iff.1 hstep
  obtain ⟨relation, rfl, rfl, -, -⟩ := exists_of_enterRelation henter
  obtain ⟨owner, howner, hlocation⟩ := hwalk.exists_of_current hcurrent
  have hhere := Walk.location_of_currentSite hrecorded hcurrent hsite
  have hlink : Attachable (placeAmong (earlier ++ [relation]))
      (.link ⟨site, traversal, relation.site.location⟩) := by
    constructor
    · rw [placeAmong_isSome_iff, hhere, ← hlocation]
      exact List.mem_map_of_mem (List.mem_append_left _ howner)
    · rw [placeAmong_isSome_iff]
      exact List.mem_map_of_mem (List.mem_append_right _ List.mem_cons_self)
  intro block hblock
  rcases List.mem_cons.1 hblock with rfl | hblock
  · exact hlink
  · obtain rfl := List.mem_singleton.1 hblock
    exact trivial

/-- The blocks of an instruction refer to locations that have been entered, its own included. -/
theorem attachable_of_readInstruction {blocks : List Block} (hrecorded : walk.Recorded types)
    (hwalk : walk.Covers earlier)
    (h : readInstruction types index marked walk instruction = .ok (blocks, after)) :
    ∀ block ∈ blocks,
      Attachable (placeAmong (earlier ++ blocks.filterMap Block.relation?)) block := by
  cases (readAs_of_readInstruction hrecorded h).1 with
  | filter =>
      intro block hblock
      refine (entered_of_filter hrecorded hwalk h block hblock).mono ?_
      rw [List.map_append]
      exact List.subset_append_left _ _
  | recurse => exact entered_of_recurse hrecorded hwalk h
  | start | traverse | fold | output => simp [Attachable]
  | unfold | mark | backtrack => simp

end Steps

/-- The vertices of a query that is read were entered one by one, and its blocks refer to them. -/
theorem grown_of_blocks {query : Query} {read : Blocks} (h : query.blocks = .ok read) :
    Grown read.relations ∧ ∀ block ∈ read.blocks, Attachable read.place? block := by
  have hstep : ∀ {index : Nat} {walk after : Walk} {instruction : Instruction}
      {rest : List Instruction} {earlier blocks : List Block},
      walk.Recorded query.types ∧ walk.Covers (earlier.filterMap Block.relation?) ∧
        Grown (earlier.filterMap Block.relation?) ∧
        (∀ block ∈ earlier, Attachable (placeAmong (earlier.filterMap Block.relation?)) block) →
      readInstruction query.types index (nextMarked? (instruction :: rest)) walk instruction =
        .ok (blocks, after) →
      after.Recorded query.types ∧ after.Covers ((earlier ++ blocks).filterMap Block.relation?) ∧
        Grown ((earlier ++ blocks).filterMap Block.relation?) ∧
        ∀ block ∈ earlier ++ blocks,
          Attachable (placeAmong ((earlier ++ blocks).filterMap Block.relation?)) block := by
    intro index walk after instruction rest earlier blocks
      ⟨hrecorded, hwalk, hgrown, hearlier⟩ hread
    have heffect := effect_of_readInstruction hread
    rw [List.filterMap_append]
    refine ⟨(readAs_of_readInstruction hrecorded hread).2.recorded hrecorded, heffect.covers hwalk,
      heffect.grown hwalk hgrown, fun block hblock => ?_⟩
    rcases List.mem_append.1 hblock with hblock | hblock
    · refine (hearlier block hblock).mono ?_
      rw [List.map_append]
      exact List.subset_append_left _ _
    · exact attachable_of_readInstruction hrecorded hwalk hread block hblock
  obtain ⟨walk, -, -, hgrown, hattachable⟩ := invariant_of_blocks
    (P := fun _ walk blocks => walk.Recorded query.types ∧
      walk.Covers (blocks.filterMap Block.relation?) ∧
      Grown (blocks.filterMap Block.relation?) ∧
      ∀ block ∈ blocks, Attachable (placeAmong (blocks.filterMap Block.relation?)) block)
    ⟨Walk.recorded_start _, Walk.covers_start, Grown.nil, by simp⟩ hstep id h
  exact ⟨hgrown, hattachable⟩

namespace Reading

variable {types : TypeTable} {instructions : List Instruction} {read : Blocks}

/-- There is a vertex at which the query starts for each instruction that starts it. -/
theorem exists_root_iff (h : Reading types instructions read) :
    (∃ relation ∈ read.relations, relation.kind = .root) ↔
      ∃ instruction ∈ instructions, instruction.isStart := by
  unfold Blocks.relations
  induction h with
  | nil => simp
  | result => simp [Instruction.isStart]
  | cons hfirst _ ih =>
      simp only [List.filterMap_append, List.mem_append, or_and_right, exists_or, ih,
        List.exists_mem_cons_iff]
      refine or_congr_left ?_
      cases hfirst with
      | start hentered | traverse hentered | recurse hentered | fold hentered =>
          simp [Block.relation?, Instruction.isStart, hentered.kind]
      | _ => simp [Block.relation?, Instruction.isStart]

/-- The fields that instructions give out on the way are read, once and in order. -/
theorem given_eq (h : Reading types instructions read) :
    (read.blocks.filterMap Block.selection?).map Selection.output = givenBy instructions := by
  induction h with
  | nil => rfl
  | result => rfl
  | @cons instruction rest blocks read hfirst _ ih =>
      rw [List.filterMap_append, List.map_append, ih]
      cases hfirst with
      | output hlocation =>
          have hmarked : nextMarked? rest = some _ := hlocation
          simp [givenBy, hmarked, Block.selection?, Selection.output]
      | _ => rfl

end Reading

/-- The vertices of a query that is read form a tree exactly if the query starts only once. -/
theorem planted_iff_of_blocks {query : Query} {read : Blocks} (h : query.blocks = .ok read) :
    Planted read.relations ↔
      ∀ instruction ∈ query.instructions.tail, ¬ instruction.isStart := by
  have hreading := reading_of_blocks h
  have hstart := (exists_readFrom_of_blocks h).1
  rw [(grown_of_blocks h).1.planted_iff]
  generalize query.instructions = instructions at hreading hstart
  cases hreading with
  | nil => exact absurd hstart (by simp)
  | result => exact absurd hstart (by simp [Instruction.isStart])
  | cons hfirst hrest =>
      cases hfirst with
      | start hentered =>
          have hroots := not_congr hrest.exists_root_iff
          simpa [Blocks.relations, Block.relation?] using hroots
      | _ => exact absurd hstart (by simp [Instruction.isStart])

end Query

theorem placeOf_eq_error_iff {nodes : List Node} {location : Location} {e : QueryError} :
    QueryTree.placeOf nodes location = .error e ↔
      placeAmong (nodes.map Node.relation) location = none ∧ e = .undefinedLocation location := by
  rw [QueryTree.placeOf, placeOf?_eq_placeAmong]
  cases placeAmong (nodes.map Node.relation) location <;> simp [eq_comm]

/-- Outputs cannot be attached if one of them has a source without a node; the first one is
reported. -/
theorem attachOutputs_eq_error_iff {outputs : List (String × FieldRef)} {index : Nat}
    {nodes : List Node} {e : QueryError} :
    QueryTree.attachOutputs nodes index outputs = .error e ↔
      ∃ output, outputs.find? (fun output =>
          (placeAmong (nodes.map Node.relation) output.2.location).isNone) = some output ∧
        e = .undefinedLocation output.2.location := by
  induction outputs generalizing nodes index with
  | nil => simp [QueryTree.attachOutputs]
  | cons output outputs ih =>
      obtain ⟨aliasName, source⟩ := output
      rw [QueryTree.attachOutputs, bind_eq_error_iff]
      simp only [placeOf_eq_error_iff, placeOf_eq_ok_iff, ih, List.find?_cons]
      cases hplace : placeAmong (nodes.map Node.relation) source.location with
      | none => simp
      | some place =>
          have hsame : (nodes.modify place
              (Node.addOutput ⟨source.field, aliasName, index⟩)).map Node.relation =
                nodes.map Node.relation := by
            apply List.ext_getElem?
            intro other
            by_cases hother : place = other <;>
              simp [hother, Function.comp_def, Node.addOutput]
          simp [hsame]

/-- A field that is given out on the way and not listed is reported, the first one if there are
several. -/
theorem forM_checkListed_eq_error_iff {outputs : List (String × FieldRef)} {blocks : List Block}
    {e : QueryError} :
    blocks.forM (QueryTree.checkListed outputs) = .error e ↔
      ∃ output, ((blocks.filterMap Block.selection?).map Selection.output).find?
          (fun output => output ∉ outputs) = some output ∧
        e = .orphanOutput output.1 output.2.location := by
  induction blocks with
  | nil => simp [pure, Except.pure]
  | cons block blocks ih =>
      change (QueryTree.checkListed outputs block >>= fun _ =>
        blocks.forM (QueryTree.checkListed outputs)) = .error e ↔ _
      rw [bind_eq_error_iff, ih]
      cases block with
      | selection s =>
          have hselections : (Block.selection s :: blocks).filterMap Block.selection? =
            s :: blocks.filterMap Block.selection? := rfl
          rw [hselections, List.map_cons]
          by_cases h : s.output ∈ outputs
          · rw [List.find?_cons_of_neg (by simpa using h)]
            simp [QueryTree.checkListed, isListed_iff.2 h]
          · rw [List.find?_cons_of_pos (by simpa using h)]
            simp [QueryTree.checkListed, mt isListed_iff.1 h, Selection.output, @eq_comm _ e]
      | relation | predicate | link => simp [QueryTree.checkListed, Block.selection?]

/-- Vertices that form a tree, with blocks that refer to them, are put together unless an output is
amiss. -/
theorem ofBlocks_eq_error_iff {read : Blocks} (hnonempty : read.relations ≠ [])
    (hplanted : Planted read.relations)
    (hattachable : ∀ block ∈ read.blocks, Attachable read.place? block) {e : QueryError} :
    QueryTree.ofBlocks read = .error e ↔
      (∃ output, read.outputs.find? (fun output => (read.place? output.2.location).isNone) =
          some output ∧ e = .undefinedLocation output.2.location) ∨
        (∀ output ∈ read.outputs, (read.place? output.2.location).isSome) ∧
          ∃ output, ((read.blocks.filterMap Block.selection?).map Selection.output).find?
              (fun output => output ∉ read.outputs) = some output ∧
            e = .orphanOutput output.1 output.2.location := by
  have hnodes : ¬ (bareNodes read.relations).isEmpty := by
    simpa [bareNodes] using hnonempty
  have hblocks : read.blocks.foldlM QueryTree.attachBlock (bareNodes read.relations) =
      .ok (withBlocks read.place? read.blocks (bareNodes read.relations)) := by
    rw [foldlM_attachBlock_eq_ok_iff, map_relation_bareNodes]
    exact ⟨hattachable, rfl⟩
  unfold QueryTree.ofBlocks
  rw [← Blocks.relations, foldlM_addRelation_eq_ok_iff.2 ⟨hplanted, rfl⟩, ok_bind, if_neg hnodes,
    hblocks]
  simp only [ok_bind, bind_eq_error_iff, attachOutputs_eq_error_iff, attachOutputs_eq_ok_iff,
    forM_checkListed_eq_error_iff, map_relation_withBlocks, map_relation_bareNodes]
  refine or_congr_right ?_
  constructor
  · rintro ⟨nodes, ⟨hsourced, -⟩, hlisted | ⟨_, -, hnone⟩⟩
    · exact ⟨hsourced, hlisted⟩
    · exact absurd hnone (by simp [pure, Except.pure])
  · rintro ⟨hsourced, hlisted⟩
    exact ⟨_, ⟨hsourced, rfl⟩, .inl hlisted⟩

private theorem exists_find?_iff {α : Type} {p : α → Prop} [DecidablePred p] {l : List α} :
    (∃ a, l.find? (fun a => p a) = some a) ↔ ∃ a ∈ l, p a := by
  rw [← Option.isSome_iff_exists, List.find?_isSome]
  simp only [decide_eq_true_eq]

namespace Query

theorem enters_iff_of_blocks {query : Query} {read : Blocks} (h : query.blocks = .ok read)
    {location : Location} : query.Enters location ↔ (read.place? location).isSome := by
  rw [Enters, entered_of_reading (reading_of_blocks h), List.mem_map_of_injective
    (Option.some_injective _), Blocks.place?, placeAmong_isSome_iff]

/-- What keeps a query that is read from having a tree.  If it starts only once, that is a listed
source that it never enters, or else a field that it gives out on the way without listing it; the
first of these is the error.  If it starts again, it never has a tree. -/
theorem assembly_fails_iff {query : Query} {read : Blocks} (h : query.blocks = .ok read) :
    ((∀ instruction ∈ query.instructions.tail, ¬ instruction.isStart) →
      ((∃ e, QueryTree.ofBlocks read = .error e) ↔
        (∃ output ∈ query.outputs, ¬ query.Enters output.2.location) ∨
          ∃ output ∈ query.given, output ∉ query.outputs) ∧
      ∀ e, QueryTree.ofBlocks read = .error e ↔
        (∃ output, query.outputs.find? (fun output => ¬ query.Enters output.2.location) =
            some output ∧ e = .undefinedLocation output.2.location) ∨
          (∀ output ∈ query.outputs, query.Enters output.2.location) ∧
            ∃ output, query.given.find? (fun output => output ∉ query.outputs) = some output ∧
              e = .orphanOutput output.1 output.2.location) ∧
    ((∃ instruction ∈ query.instructions.tail, instruction.isStart) →
      ∃ e, QueryTree.ofBlocks read = .error e) := by
  have hreading := reading_of_blocks h
  obtain ⟨first, hfirst, -⟩ := exists_first_of_blocks h
  have hnonempty : read.relations ≠ [] := List.ne_nil_of_mem (List.mem_of_getElem? hfirst)
  constructor
  · intro hstart
    have herror : ∀ e, QueryTree.ofBlocks read = .error e ↔ _ := fun e =>
      ofBlocks_eq_error_iff hnonempty ((planted_iff_of_blocks h).2 hstart) (grown_of_blocks h).2
    have hmissing : ∀ output : String × FieldRef, (read.place? output.2.location).isNone =
        decide (¬ query.Enters output.2.location) := by
      intro output
      rw [Bool.eq_iff_iff, decide_eq_true_eq, enters_iff_of_blocks h]
      simp
    have houtputs : read.outputs = query.outputs := hreading.outputs_eq
    simp only [← enters_iff_of_blocks h, hmissing, hreading.given_eq, houtputs] at herror
    refine ⟨?_, herror⟩
    rw [exists_congr herror, ← exists_find?_iff, ← exists_find?_iff]
    constructor
    · rintro ⟨e, ⟨output, hfound, -⟩ | ⟨-, output, hfound, -⟩⟩
      · exact .inl ⟨output, hfound⟩
      · exact .inr ⟨output, hfound⟩
    · rintro (⟨source, hsource⟩ | ⟨output, houtput⟩)
      · exact ⟨_, .inl ⟨source, hsource, rfl⟩⟩
      · by_cases hsourced : ∀ output ∈ query.outputs, query.Enters output.2.location
        · exact ⟨_, .inr ⟨hsourced, output, houtput, rfl⟩⟩
        · push Not at hsourced
          obtain ⟨source, hsource⟩ := exists_find?_iff.2 hsourced
          exact ⟨_, .inl ⟨source, hsource, rfl⟩⟩
  · rintro ⟨instruction, hmem, hstart⟩
    have hnot : ¬ Planted read.relations :=
      fun hplanted => (planted_iff_of_blocks h).1 hplanted instruction hmem hstart
    cases htree : QueryTree.ofBlocks read with
    | error e => exact ⟨e, rfl⟩
    | ok tree => exact absurd (ofBlocks_eq_ok_iff.1 htree).1.planted hnot

/-- Animals with their offspring, of which the weights are given out.  The list names the owner, to
whom the query never goes, and leaves out the weight. -/
def misquoted : Query where
  instructions := [
    .start "Animal", .output "name" "animal", .mark ⟨["Animal"]⟩,
    .traverse ⟨"child", .outward⟩ false, .output "weight" "weight",
    .mark ⟨["Animal", "out_child"]⟩, .backtrack ⟨["Animal"]⟩ false, .mark ⟨["Animal"]⟩,
    .result [("animal", ⟨⟨["Animal"]⟩, "name"⟩), ("owner", ⟨⟨["Animal", "in_owns"]⟩, "name"⟩)]]
  types := .ofList [(⟨["Animal"]⟩, ⟨"Animal", none⟩),
    (⟨["Animal", "out_child"]⟩, ⟨"Animal", none⟩)]

/-- Animals with their offspring, where the query starts over at the offspring. -/
def restarted : Query where
  instructions := [
    .start "Animal", .output "name" "animal", .mark ⟨["Animal"]⟩,
    .start "Animal", .mark ⟨["Animal", "out_child"]⟩, .backtrack ⟨["Animal"]⟩ false,
    .mark ⟨["Animal"]⟩, .result [("animal", ⟨⟨["Animal"]⟩, "name"⟩)]]
  types := misquoted.types

theorem assembly_fails_misquoted :
    (∃ read, misquoted.blocks = .ok read ∧
      QueryTree.ofBlocks read = .error (.undefinedLocation ⟨["Animal", "in_owns"]⟩)) ∧
    ∃ read, restarted.blocks = .ok read ∧ ∃ e, QueryTree.ofBlocks read = .error e := by
  constructor
  · obtain ⟨read, hread⟩ := exists_of_isOk (show misquoted.blocks.isOk = true by cbv)
    refine ⟨read, hread, (((assembly_fails_iff hread).1 (by decide)).2 _).2 (.inl ?_)⟩
    exact ⟨("owner", ⟨⟨["Animal", "in_owns"]⟩, "name"⟩), by decide, rfl⟩
  · obtain ⟨read, hread⟩ := exists_of_isOk (show restarted.blocks.isOk = true by cbv)
    exact ⟨read, hread, (assembly_fails_iff hread).2 (by decide)⟩

end Query

end TraversalSql
