import TraversalSql.Proofs.OrderedMaps
import TraversalSql.Proofs.Pattern
import TraversalSql.Query.Blocks

/-!
The stream of a pattern is read to the blocks of the pattern.  The invariant is `Walk.StandsAt`:
between two branches of a vertex the walk stands at that vertex, with the scopes of the vertex open
and none that was opened for a branch.
-/

namespace TraversalSql

open Outcome

namespace Query

/-- What is read with more blocks in front. -/
def prepend (blocks : List Block) (result : Except QueryError (Blocks × Walk)) :
    Except QueryError (Blocks × Walk) :=
  result.map fun (read, walk) => ({ read with blocks := blocks ++ read.blocks }, walk)

@[simp]
theorem prepend_nil (result : Except QueryError (Blocks × Walk)) : prepend [] result = result := by
  cases result <;> rfl

@[simp]
theorem prepend_prepend (first second : List Block) (result : Except QueryError (Blocks × Walk)) :
    prepend first (prepend second result) = prepend (first ++ second) result := by
  cases result <;> simp [prepend, Except.map]

/-- An instruction other than the last one is read on its own, and then the others. -/
theorem readFrom_cons (types : TypeTable) (index : Nat) {walk walk' : Walk}
    {instruction : Instruction} {blocks : List Block} {rest : List Instruction}
    (h : readInstruction types index (nextMarked? (instruction :: rest)) walk instruction =
      .ok (blocks, walk')) :
    readFrom types index walk (instruction :: rest) =
      prepend blocks (readFrom types (index + 1) walk' rest) := by
  rw [readFrom]
  · rw [h, ok_bind]
    dsimp only
    cases readFrom types (index + 1) walk' rest <;> rfl
  · rintro fields rfl rfl
    simp [readInstruction] at h

theorem nextMarked?_cons {instruction : Instruction} (h : instruction.marked? = none)
    (rest : List Instruction) : nextMarked? (instruction :: rest) = nextMarked? rest := by
  simp [nextMarked?, h]

theorem nextMarked?_map_append {α : Type} {instruction : α → Instruction} (as : List α)
    (h : ∀ a ∈ as, (instruction a).marked? = none) (rest : List Instruction) :
    nextMarked? (as.map instruction ++ rest) = nextMarked? rest := by
  induction as with
  | nil => rfl
  | cons a as ih =>
      rw [List.forall_mem_cons] at h
      rw [List.map_cons, List.cons_append, nextMarked?_cons h.1, ih h.2]

/-- Instructions that mark nothing and leave the walk alone all belong to the next location. -/
theorem readFrom_map_append {α : Type} (types : TypeTable) (walk : Walk) {location : Location}
    {rest : List Instruction} (hmarked : nextMarked? rest = some location)
    {instruction : α → Instruction} {block : α → Block} (as : List α)
    (hunmarked : ∀ a ∈ as, (instruction a).marked? = none)
    (hread : ∀ a ∈ as, ∀ index,
      readInstruction types index (some location) walk (instruction a) = .ok ([block a], walk))
    (index : Nat) :
    ∃ index', readFrom types index walk (as.map instruction ++ rest) =
      prepend (as.map block) (readFrom types index' walk rest) := by
  induction as generalizing index with
  | nil => exact ⟨index, by simp⟩
  | cons a as ih =>
      rw [List.forall_mem_cons] at hunmarked hread
      obtain ⟨index', hrest⟩ := ih hunmarked.2 hread.2 (index + 1)
      have hfirst : readInstruction types index
          (nextMarked? (instruction a :: (as.map instruction ++ rest))) walk (instruction a) =
          .ok ([block a], walk) := by
        rw [nextMarked?_cons hunmarked.1, nextMarked?_map_append as hunmarked.2, hmarked]
        exact hread.1 index
      refine ⟨index', ?_⟩
      rw [List.map_cons, List.cons_append, readFrom_cons types index hfirst, hrest]
      simp

theorem siteOf_eq_ok {walk : Walk} {site : Site}
    (h : walk.sites.find? site.location = some site) : siteOf walk site.location = .ok site := by
  simp [siteOf, Walk.siteAt, h, Except.mapError]

/-- A filter whose tag has been entered is read. -/
theorem readInstruction_filter {walk : Walk} {site : Site} {filter : PatternFilter}
    (hsite : walk.sites.find? site.location = some site)
    (htag : ∀ tag ∈ filter.tag, (walk.sites.find? tag.location).isSome) (types : TypeTable)
    (index : Nat) :
    readInstruction types index (some site.location) walk filter.instruction =
      .ok ([.predicate ⟨site, filter.field, filter.params, filter.operator, filter.tag⟩],
        walk) := by
  simp only [PatternFilter.instruction, readInstruction, needLocation, siteOf_eq_ok hsite, ok_bind,
    FilterOperator.ofName?_name]
  cases h : filter.tag with
  | none => rfl
  | some tag =>
      have hentered : walk.hasEntered tag.location = true := htag tag h
      simp [hentered, pure, Except.pure]

theorem readInstruction_output {walk : Walk} {site : Site} (output : PatternOutput)
    (hsite : walk.sites.find? site.location = some site) (types : TypeTable) (index : Nat) :
    readInstruction types index (some site.location) walk output.instruction =
      .ok ([.selection ⟨site, output.field, output.aliasName⟩], walk) := by
  simp [PatternOutput.instruction, readInstruction, needLocation, siteOf_eq_ok hsite, ok_bind,
    pure, Except.pure]

end Query

def PatternVertex.blocks (vertex : PatternVertex) (site : Site) : List Block :=
  (vertex.filters.map fun filter =>
      .predicate ⟨site, filter.field, filter.params, filter.operator, filter.tag⟩)
    ++ vertex.outputs.map fun output => .selection ⟨site, output.field, output.aliasName⟩

namespace Query

/-- The filters and outputs of a vertex are read before its location is marked. -/
theorem readFrom_body (types : TypeTable) {walk : Walk} {site : Site} {vertex : PatternVertex}
    {rest : List Instruction} (hmarked : nextMarked? rest = some site.location)
    (hsite : walk.sites.find? site.location = some site)
    (htags : ∀ filter ∈ vertex.filters, ∀ tag ∈ filter.tag,
      (walk.sites.find? tag.location).isSome) (index : Nat) :
    ∃ index', readFrom types index walk (vertex.body ++ rest) =
      prepend (vertex.blocks site) (readFrom types index' walk rest) := by
  have hunmarked : ∀ output ∈ vertex.outputs,
      (PatternOutput.instruction output).marked? = none := fun _ _ => rfl
  have hmarked' : nextMarked? (vertex.outputs.map PatternOutput.instruction ++ rest) =
      some site.location := by
    rw [nextMarked?_map_append vertex.outputs hunmarked, hmarked]
  obtain ⟨middle, hfilters⟩ := readFrom_map_append types walk hmarked'
    vertex.filters (fun _ _ => rfl)
    (fun filter hfilter index => readInstruction_filter hsite (htags filter hfilter) types index)
    index
  obtain ⟨last, houtputs⟩ := readFrom_map_append types walk hmarked
    vertex.outputs hunmarked
    (fun output _ index => readInstruction_output output hsite types index) middle
  refine ⟨last, ?_⟩
  rw [PatternVertex.body, List.append_assoc, hfilters, houtputs, prepend_prepend]
  rfl

theorem nextMarked?_body_append (vertex : PatternVertex) (rest : List Instruction) :
    nextMarked? (vertex.body ++ rest) = nextMarked? rest := by
  rw [PatternVertex.body, List.append_assoc,
    nextMarked?_map_append vertex.filters fun _ _ => rfl,
    nextMarked?_map_append vertex.outputs fun _ _ => rfl]

end Query

/-- The walk stands at a vertex: the vertex is on top of the path and has been recorded with the
scopes that are open, all of which were opened further up. -/
structure Walk.StandsAt (walk : Walk) (site : Site) : Prop where
  path : ∃ up, walk.path = site.location :: up
  nonempty : site.location.steps ≠ []
  recorded : walk.sites.find? site.location = some site
  optional : walk.isInside .optional = site.inOptional
  fold : walk.isInside .fold = site.inFold
  recursion : walk.isInside .recursive = site.inRecursion
  heights : ∀ scope ∈ walk.scopes, scope.height < walk.path.length

/-- The walk that has recorded more sites and closed more optional scopes. -/
def Walk.having (walk : Walk) (sites : List Site) (closed : Nat) : Walk :=
  { walk with
    sites := walk.sites.adjoin (sites.map fun site => (site.location, site))
    optionalsClosed := walk.optionalsClosed + closed }

/-- The scope that a crossing opens when the path has a given height. -/
def Crossing.opened (crossing : Crossing) (above : Location) (height : Nat) : List OpenScope :=
  crossing.kind.scope?.toList.map fun kind => ⟨kind, above, height⟩

/-- The walk after a vertex is entered by a crossing. -/
def Walk.across (walk : Walk) (crossing : Crossing) (above : Location) (site : Site) : Walk where
  path := site.location :: walk.path
  scopes := crossing.opened above walk.path.length ++ walk.scopes
  sites := walk.sites.adjoin [(site.location, site)]
  optionalsClosed := walk.optionalsClosed

namespace Walk

@[simp]
theorem having_nil (walk : Walk) : walk.having [] 0 = walk := by
  simp [having]

theorem having_having (walk : Walk) (first second : List Site) (closed more : Nat) :
    (walk.having first closed).having second more =
      walk.having (first ++ second) (closed + more) := by
  simp [having, Nat.add_assoc]

theorem find?_having {walk : Walk} {location : Location} {site : Site}
    (h : walk.sites.find? location = some site) (sites : List Site) (closed : Nat) :
    (walk.having sites closed).sites.find? location = some site := by
  simp [having, OrderedMap.find?_adjoin, h]

theorem StandsAt.having {walk : Walk} {site : Site} (h : walk.StandsAt site) (sites : List Site)
    (closed : Nat) : (walk.having sites closed).StandsAt site where
  path := h.path
  nonempty := h.nonempty
  recorded := find?_having h.recorded sites closed
  optional := h.optional
  fold := h.fold
  recursion := h.recursion
  heights := h.heights

theorem isInside_across (walk : Walk) (crossing : Crossing) (above : Location) (site : Site)
    (kind : ScopeKind) :
    (walk.across crossing above site).isInside kind =
      (walk.isInside kind || crossing.kind.scope? == some kind) := by
  unfold isInside across Crossing.opened
  cases hscope : crossing.kind.scope? with
  | none => simp
  | some opened => simp [Bool.or_comm]

/-- A crossing leads from the vertex above to the vertex below. -/
theorem StandsAt.across {walk : Walk} {above : Site} (h : walk.StandsAt above)
    (crossing : Crossing) (vertex : PatternVertex)
    (hfresh : walk.sites.find? (above.below crossing vertex).location = none) :
    (walk.across crossing above.location (above.below crossing vertex)).StandsAt
      (above.below crossing vertex) where
  path := ⟨walk.path, rfl⟩
  nonempty := by simp [Site.below, Location.child]
  recorded := by simp [Walk.across, OrderedMap.find?_adjoin, hfresh]
  optional := by rw [isInside_across, h.optional]; rfl
  fold := by rw [isInside_across, h.fold]; rfl
  recursion := by rw [isInside_across, h.recursion]; rfl
  heights := by
    intro scope hscope
    simp only [Walk.across, Crossing.opened, List.mem_append, List.mem_map] at hscope
    simp only [Walk.across, List.length_cons]
    rcases hscope with ⟨kind, -, rfl⟩ | hscope
    · exact Nat.lt_succ_self _
    · exact Nat.lt_succ_of_lt (h.heights scope hscope)

theorem StandsAt.current {walk : Walk} {site : Site} (h : walk.StandsAt site) :
    walk.current = .ok site.location := by
  obtain ⟨up, hpath⟩ := h.path
  simp [Walk.current, hpath]

theorem StandsAt.currentSite {walk : Walk} {site : Site} (h : walk.StandsAt site) :
    walk.currentSite = .ok site := by
  have hempty : walk.sites.isEmpty = false := by
    cases hentries : walk.sites.entries with
    | nil => simpa [OrderedMap.find?, hentries] using h.recorded
    | cons entry entries => simp [OrderedMap.isEmpty, hentries]
  simp [Walk.currentSite, hempty, h.current, ok_bind, siteAt, h.recorded]

/-- The parent of a location that a crossing leads to is the location above, whether the table says
so or says nothing. -/
theorem outerType_below {types : TypeTable} {above : Site} (hnonempty : above.location.steps ≠ [])
    {crossing : Crossing} {vertex : PatternVertex}
    (hparent : types.parent? (above.below crossing vertex).location = none ∨
      types.parent? (above.below crossing vertex).location =
        (above.below crossing vertex).location.parent?)
    (habove : types.typeName? above.location = some above.currentType) :
    outerType types (above.below crossing vertex).location = .ok (some above.currentType) := by
  have hchild : (above.below crossing vertex).location.parent? = some above.location :=
    Location.parent?_child _ _ hnonempty
  have hor : (types.parent? (above.below crossing vertex).location).or
      (above.below crossing vertex).location.parent? = some above.location := by
    rcases hparent with hnone | hsame
    · rw [hnone, hchild, Option.none_or]
    · rw [hsame, hchild, Option.some_or]
  simp [outerType, hor, habove]

/-- A new location with a type is entered. -/
theorem enter_eq_ok (walk : Walk) {types : TypeTable} {location : Location} {typeName : String}
    {outer : Option String} (hfresh : walk.sites.find? location = none)
    (htype : types.typeName? location = some typeName)
    (houter : outerType types location = .ok outer) {site : Site}
    (hsite : site = ⟨location, walk.isInside .optional, walk.isInside .fold,
      walk.isInside .recursive, typeName, outer⟩) :
    walk.enter types location = .ok (site,
      { walk with
        path := location :: walk.path
        sites := walk.sites.adjoin [(location, site)] }) := by
  have hnew : walk.sites.contains location = false := by simp [OrderedMap.contains, hfresh]
  subst hsite
  simp [enter, hnew, htype, houter, ok_bind, OrderedMap.insert_eq_adjoin hfresh, pure,
    Except.pure]

theorem StandsAt.openScope {walk : Walk} {site : Site} (h : walk.StandsAt site) {kind : ScopeKind}
    (hclosed : walk.isInside kind = false) :
    walk.openScope kind =
      .ok { walk with scopes := ⟨kind, site.location, walk.path.length⟩ :: walk.scopes } := by
  simp [Walk.openScope, hclosed, h.current, ok_bind, pure, Except.pure]

end Walk

/-- The key that a recursion asks of the vertex above it. -/
def Crossing.links (crossing : Crossing) (above : Site) : List Block :=
  match crossing.kind with
  | .recurse _ => [.link ⟨above, crossing.traversal, above.location.child crossing.step⟩]
  | _ => []

/-- The vertex that a crossing reaches. -/
def Crossing.relation (crossing : Crossing) (above : Site) (vertex : PatternVertex) : Relation :=
  ⟨above.below crossing vertex, crossing.kind.relationKind, some crossing.traversal⟩

namespace Query

theorem checkStep_below {walk : Walk} {above : Site} (h : walk.StandsAt above)
    (crossing : Crossing) (vertex : PatternVertex) :
    checkStep walk (above.below crossing vertex).location = .ok () := by
  have hchild : (above.below crossing vertex).location.parent? = some above.location :=
    Location.parent?_child _ _ h.nonempty
  simp [checkStep, h.current, ok_bind, hchild, pure, Except.pure]

/-- The vertex of a branch is entered once the scope of its crossing is open. -/
theorem enterRelation_below {types : TypeTable} {walk : Walk} {above : Site}
    (h : walk.StandsAt above) {crossing : Crossing} {vertex : PatternVertex}
    (hfresh : walk.sites.find? (above.below crossing vertex).location = none)
    (htype : types.typeName? (above.below crossing vertex).location = some vertex.typeName)
    (houter : Walk.outerType types (above.below crossing vertex).location =
      .ok (some above.currentType)) :
    enterRelation types
        { walk with scopes := crossing.opened above.location walk.path.length ++ walk.scopes }
        (above.below crossing vertex).location crossing.kind.relationKind
        (some crossing.traversal) =
      .ok (.relation (crossing.relation above vertex),
        walk.across crossing above.location (above.below crossing vertex)) := by
  let opened : Walk :=
    { walk with scopes := crossing.opened above.location walk.path.length ++ walk.scopes }
  have hinside : ∀ kind, opened.isInside kind =
      (walk.isInside kind || crossing.kind.scope? == some kind) :=
    walk.isInside_across crossing above.location (above.below crossing vertex)
  have hfresh : opened.sites.find? (above.below crossing vertex).location = none := hfresh
  have hsite : above.below crossing vertex =
      ⟨(above.below crossing vertex).location, opened.isInside .optional, opened.isInside .fold,
        opened.isInside .recursive, vertex.typeName, some above.currentType⟩ := by
    simp only [hinside, h.optional, h.fold, h.recursion]
    rfl
  have henter := Walk.enter_eq_ok opened hfresh htype houter hsite
  rw [enterRelation, henter, ok_bind]
  rfl

/-- The first instruction of a branch opens the scope of its crossing and enters its vertex. -/
theorem readInstruction_entry {types : TypeTable} {walk : Walk} {above : Site}
    (h : walk.StandsAt above) {crossing : Crossing} {vertex : PatternVertex}
    (hfresh : walk.sites.find? (above.below crossing vertex).location = none)
    (hclosed : ∀ kind, crossing.kind.scope? = some kind → walk.isInside kind = false)
    (htype : types.typeName? (above.below crossing vertex).location = some vertex.typeName)
    (houter : Walk.outerType types (above.below crossing vertex).location =
      .ok (some above.currentType)) (index : Nat) :
    readInstruction types index (some (above.below crossing vertex).location) walk
        crossing.entry =
      .ok (crossing.links above ++ [.relation (crossing.relation above vertex)],
        walk.across crossing above.location (above.below crossing vertex)) := by
  have hstep := checkStep_below h crossing vertex
  have henter := enterRelation_below h hfresh htype houter
  cases hkind : crossing.kind with
  | mandatory =>
      simp only [hkind, Crossing.opened, CrossingKind.scope?, CrossingKind.relationKind,
        Option.toList_none, List.map_nil, List.nil_append] at henter
      have henter : enterRelation types walk _ .traverse _ = _ := henter
      simp only [Crossing.entry, Crossing.links, hkind, readInstruction, needLocation, hstep,
        ok_bind, Bool.false_eq_true, if_false, pure_bind, henter]
      rfl
  | optional =>
      have hopen := h.openScope (hclosed .optional (by simp [hkind, CrossingKind.scope?]))
      simp only [hkind, Crossing.opened, CrossingKind.scope?, CrossingKind.relationKind,
        Option.toList_some, List.map_cons, List.map_nil, List.singleton_append] at henter
      simp only [Crossing.entry, Crossing.links, hkind, readInstruction, needLocation, hstep,
        ok_bind, if_true, hopen, henter]
      rfl
  | recurse depth =>
      have hopen := h.openScope (hclosed .recursive (by simp [hkind, CrossingKind.scope?]))
      simp only [hkind, Crossing.opened, CrossingKind.scope?, CrossingKind.relationKind,
        Option.toList_some, List.map_cons, List.map_nil, List.singleton_append] at henter
      simp only [Crossing.entry, Crossing.links, hkind, readInstruction, needLocation, hstep,
        ok_bind, h.currentSite, hopen, henter]
      rfl
  | fold =>
      have hopen := h.openScope (hclosed .fold (by simp [hkind, CrossingKind.scope?]))
      simp only [hkind, Crossing.opened, CrossingKind.scope?, CrossingKind.relationKind,
        Option.toList_some, List.map_cons, List.map_nil, List.singleton_append] at henter
      simp only [Crossing.entry, Crossing.links, hkind, readInstruction, needLocation, hstep,
        ok_bind, hopen, henter]
      rfl

end Query

/-- How many optional scopes a crossing opens. -/
def Crossing.optionals (crossing : Crossing) : Nat := if crossing.kind = .optional then 1 else 0

/-- Going back closes the scope of the crossing and leaves those that were opened further up. -/
theorem Walk.closeAtHeight_opened {crossing : Crossing} (hfold : crossing.kind ≠ .fold)
    (location above : Location) {height : Nat} {scopes : List OpenScope}
    (h : ∀ scope ∈ scopes, scope.height < height) :
    Walk.closeAtHeight location height (crossing.opened above height ++ scopes) =
      .ok (scopes, crossing.optionals) := by
  have hrest : Walk.closeAtHeight location height scopes = .ok (scopes, 0) := by
    cases scopes with
    | nil => rfl
    | cons scope scopes =>
        have hne : scope.height ≠ height := Nat.ne_of_lt (h scope List.mem_cons_self)
        simp [Walk.closeAtHeight, hne]
  cases hkind : crossing.kind with
  | mandatory =>
      simpa [Crossing.opened, Crossing.optionals, hkind, CrossingKind.scope?] using hrest
  | optional =>
      simp [Crossing.opened, Crossing.optionals, hkind, CrossingKind.scope?, Walk.closeAtHeight,
        hrest, ok_bind, pure, Except.pure]
  | recurse depth =>
      simp [Crossing.opened, Crossing.optionals, hkind, CrossingKind.scope?, Walk.closeAtHeight,
        hrest]
  | fold => exact absurd hkind hfold

/-- Going back leaves the vertex of a branch with all that was recorded below it. -/
theorem Walk.StandsAt.backtrack {walk : Walk} {above : Site} (h : walk.StandsAt above)
    {crossing : Crossing} (hfold : crossing.kind ≠ .fold) (site : Site) (sites : List Site)
    (closed : Nat) :
    ((walk.across crossing above.location site).having sites closed).backtrack above.location
        (crossing.kind == .optional) =
      .ok (walk.having (site :: sites) (closed + crossing.optionals)) := by
  obtain ⟨up, hpath⟩ := h.path
  have hclose := Walk.closeAtHeight_opened hfold above.location above.location h.heights
  have hoptional : (crossing.optionals != 0) = (crossing.kind == .optional) := by
    cases hkind : crossing.kind <;> simp [Crossing.optionals, hkind]
  have hleave : ((walk.across crossing above.location site).having sites closed).leave =
      .ok (site.location, { (walk.across crossing above.location site).having sites closed with
        path := walk.path }) := rfl
  have hcurrent : ({ (walk.across crossing above.location site).having sites closed with
      path := walk.path } : Walk).current = .ok above.location := h.current
  have hclose : Walk.closeAtHeight above.location walk.path.length
      ((walk.across crossing above.location site).having sites closed).scopes =
        .ok (walk.scopes, crossing.optionals) := hclose
  simp only [Walk.backtrack, hleave, ok_bind, hcurrent, ne_eq, not_true, if_false, hclose,
    hoptional, bne_self_eq_false, Bool.false_eq_true]
  simp [Walk.having, Walk.across, pure, Except.pure, Nat.add_assoc]

namespace Query

theorem exit_of_ne_fold {crossing : Crossing} (h : crossing.kind ≠ .fold) (above : Location) :
    crossing.exit above = .backtrack above (crossing.kind == .optional) := by
  cases hkind : crossing.kind with
  | fold => exact absurd hkind h
  | mandatory => simp [Crossing.exit, hkind]
  | optional => simp [Crossing.exit, hkind]
  | recurse depth => simp [Crossing.exit, hkind]

/-- The last instruction of a branch closes the scope of its crossing and goes back. -/
theorem readInstruction_exit {walk : Walk} {above : Site} (h : walk.StandsAt above)
    (crossing : Crossing) (types : TypeTable) (index : Nat) (marked : Option Location)
    (site : Site) (sites : List Site) (closed : Nat) :
    readInstruction types index marked
        ((walk.across crossing above.location site).having sites closed)
        (crossing.exit above.location) =
      .ok ([], walk.having (site :: sites) (closed + crossing.optionals)) := by
  by_cases hfold : crossing.kind = .fold
  · simp [Crossing.exit, hfold, readInstruction, Walk.leave, Walk.having, Walk.across, ok_bind,
      Walk.closeScope, Crossing.opened, CrossingKind.scope?, Crossing.optionals, pure,
      Except.pure]
  · rw [exit_of_ne_fold hfold, readInstruction, h.backtrack hfold, ok_bind]
    rfl

theorem readInstruction_mark {walk : Walk} {site : Site} (h : walk.StandsAt site)
    (types : TypeTable) (index : Nat) (marked : Option Location) :
    readInstruction types index marked walk (.mark site.location) = .ok ([], walk) := by
  simp [readInstruction, h.current, ok_bind, pure, Except.pure]

end Query

def sitesOf (places : List Place) : List Site := places.map fun place => place.relation.site

theorem map_location_sitesOf (places : List Place) :
    (sitesOf places).map Site.location = places.map Place.location := by
  simp [sitesOf, Place.location]

namespace Walk

theorem hasEntered_having (walk : Walk) (sites : List Site) (closed : Nat) (location : Location) :
    (walk.having sites closed).hasEntered location ↔
      walk.hasEntered location ∨ location ∈ sites.map Site.location := by
  have hlookup : ((sites.map fun site => (site.location, site)).lookup location).isSome ↔
      location ∈ sites.map Site.location := by
    simp [List.lookup_isSome_iff, @eq_comm Location location]
  simp only [hasEntered, OrderedMap.contains, having, OrderedMap.find?_adjoin, Option.isSome_or,
    Bool.or_eq_true, hlookup]

theorem find?_of_not_hasEntered {walk : Walk} {location : Location}
    (h : ¬ walk.hasEntered location) : walk.sites.find? location = none := by
  simpa [hasEntered, OrderedMap.contains] using h

theorem hasEntered_across (walk : Walk) (crossing : Crossing) (above : Location) (site : Site)
    (location : Location) :
    (walk.across crossing above site).hasEntered location ↔
      walk.hasEntered location ∨ location = site.location := by
  change (walk.having [site] 0).hasEntered location ↔ _
  simp [hasEntered_having]

end Walk

namespace Branches

def blocks (above : Site) : Branches → List Block
  | .none => []
  | .branch crossing vertex below beside =>
      crossing.links above ++ .relation (crossing.relation above vertex) ::
        (vertex.blocks (above.below crossing vertex)
          ++ below.blocks (above.below crossing vertex) ++ beside.blocks above)

/-- How many optional scopes branches open. -/
def optionals : Branches → Nat
  | .none => 0
  | .branch crossing _ below beside => below.optionals + crossing.optionals + beside.optionals

end Branches

namespace Query

/-- What reading branches asks of the table and of the walk. -/
structure Readable (types : TypeTable) (walk : Walk) (branches : Branches)
    (places : List Place) : Prop where
  distinct : (places.map Place.location).Nodup
  fresh : ∀ place ∈ places, ¬ walk.hasEntered place.location
  unnested : branches.Unnested
  closed : ∀ kind, branches.Opens kind → walk.isInside kind = false
  registered : ∀ place ∈ places,
    types.typeName? place.location = some place.vertex.typeName ∧
      (types.parent? place.location = none ∨
        types.parent? place.location = place.location.parent?)
  tagged : ∀ before place after, places = before ++ place :: after →
    ∀ filter ∈ place.vertex.filters, ∀ tag ∈ filter.tag,
      tag.location ∈ (before ++ [place]).map Place.location ∨ walk.hasEntered tag.location

section Branch

variable {types : TypeTable} {walk : Walk} {crossing : Crossing} {vertex : PatternVertex}
  {below beside : Branches} {first : Place} {inner outer : List Place}

/-- What reading a branch leaves to ask for what lies below its vertex. -/
theorem Readable.inward
    (h : Readable types walk (.branch crossing vertex below beside) (first :: (inner ++ outer)))
    (above : Location) :
    Readable types (walk.across crossing above first.relation.site) below inner where
  distinct := by
    have := h.distinct
    simp only [List.map_cons, List.map_append, List.nodup_cons, List.nodup_append'] at this
    exact this.2.1
  fresh := by
    intro place hplace
    rw [Walk.hasEntered_across, not_or]
    refine ⟨h.fresh place (by simp [hplace]), ?_⟩
    have := h.distinct
    simp only [List.map_cons, List.nodup_cons, List.mem_map, not_exists, not_and] at this
    exact this.1 place (by simp [hplace])
  unnested := h.unnested.2.1
  closed := by
    intro kind hkind
    have hscope : crossing.kind.scope? ≠ some kind := fun heq => h.unnested.1 kind heq hkind
    rw [Walk.isInside_across, h.closed kind (.inr (.inl hkind))]
    simpa using hscope
  registered := fun place hplace => h.registered place (by simp [hplace])
  tagged := by
    intro before place after hsplit filter hfilter tag htag
    rw [Walk.hasEntered_across]
    have := h.tagged (first :: before) place (after ++ outer) (by simp [hsplit]) filter hfilter tag
      htag
    simp only [List.cons_append, List.map_cons, List.mem_cons] at this
    rcases this with (heq | hmem) | hentered
    · exact .inr (.inr heq)
    · exact .inl hmem
    · exact .inr (.inl hentered)

/-- What reading a branch leaves to ask for the branches beside it. -/
theorem Readable.onward
    (h : Readable types walk (.branch crossing vertex below beside) (first :: (inner ++ outer)))
    (closed : Nat) :
    Readable types (walk.having (sitesOf (first :: inner)) closed) beside outer where
  distinct := by
    have := h.distinct
    simp only [List.map_cons, List.map_append, List.nodup_cons, List.nodup_append'] at this
    exact this.2.2.1
  fresh := by
    intro place hplace
    rw [Walk.hasEntered_having, map_location_sitesOf, not_or]
    refine ⟨h.fresh place (by simp [hplace]), ?_⟩
    have hdistinct : ((first :: inner).map Place.location ++ outer.map Place.location).Nodup := by
      simpa using h.distinct
    rw [List.nodup_append'] at hdistinct
    exact fun hmem => hdistinct.2.2 hmem (List.mem_map_of_mem hplace)
  unnested := h.unnested.2.2
  closed := fun kind hkind => h.closed kind (.inr (.inr hkind))
  registered := fun place hplace => h.registered place (by simp [hplace])
  tagged := by
    intro before place after hsplit filter hfilter tag htag
    rw [Walk.hasEntered_having, map_location_sitesOf]
    have := h.tagged (first :: inner ++ before) place after (by simp [hsplit]) filter hfilter tag
      htag
    rw [List.append_assoc, List.map_append, List.mem_append] at this
    rcases this with (hearlier | hmem) | hentered
    · exact .inr (.inr hearlier)
    · exact .inl hmem
    · exact .inr (.inl hentered)

end Branch

theorem marked?_entry (crossing : Crossing) : crossing.entry.marked? = none := by
  cases hkind : crossing.kind <;> simp [Crossing.entry, hkind, Instruction.marked?]

/-- Reading the head of a branch enters its vertex. -/
theorem readFrom_entry {types : TypeTable} {walk : Walk} {above : Site} (h : walk.StandsAt above)
    (habove : types.typeName? above.location = some above.currentType) {crossing : Crossing}
    {vertex : PatternVertex} {below beside : Branches} {origin : Option (Nat × Site)}
    {others : List Place}
    (hreadable : Readable types walk (.branch crossing vertex below beside)
      (⟨origin, crossing.relation above vertex, vertex⟩ :: others))
    (index : Nat) (rest : List Instruction) :
    ∃ index', readFrom types index walk (crossing.entry :: (vertex.body ++
        .mark (above.below crossing vertex).location :: rest)) =
      prepend (crossing.links above ++ .relation (crossing.relation above vertex) ::
          vertex.blocks (above.below crossing vertex))
        (readFrom types index'
          (walk.across crossing above.location (above.below crossing vertex)) rest) := by
  let site := above.below crossing vertex
  let inside := walk.across crossing above.location site
  have hnew := hreadable.fresh _ List.mem_cons_self
  obtain ⟨htype, hparent⟩ := hreadable.registered _ List.mem_cons_self
  have hfresh : walk.sites.find? site.location = none := Walk.find?_of_not_hasEntered hnew
  have hinside : inside.StandsAt site := h.across crossing vertex hfresh
  have htags : ∀ filter ∈ vertex.filters, ∀ tag ∈ filter.tag,
      (inside.sites.find? tag.location).isSome := by
    intro filter hfilter tag htag
    have htagged := hreadable.tagged [] _ others rfl filter hfilter tag htag
    rw [List.nil_append, List.map_singleton, List.mem_singleton] at htagged
    exact (walk.hasEntered_across crossing above.location site _).2 htagged.symm
  have hmark : nextMarked? (.mark site.location :: rest) = some site.location := rfl
  have hentry : readInstruction types index
      (nextMarked? (crossing.entry :: (vertex.body ++ .mark site.location :: rest))) walk
        crossing.entry =
      .ok (crossing.links above ++ [.relation (crossing.relation above vertex)], inside) := by
    rw [nextMarked?_cons (marked?_entry crossing), nextMarked?_body_append, hmark]
    apply readInstruction_entry h hfresh _ htype (Walk.outerType_below h.nonempty hparent habove)
    exact fun kind hkind => hreadable.closed kind (.inl hkind)
  obtain ⟨index', hbody⟩ := readFrom_body types hmark hinside.recorded htags (index + 1)
  refine ⟨index' + 1, ?_⟩
  rw [readFrom_cons types index hentry, hbody,
    readFrom_cons types index' (readInstruction_mark hinside types index' _)]
  simp [inside, site]

/-- Reading the tail of a branch comes back to the vertex above it. -/
theorem readFrom_exit (types : TypeTable) {walk : Walk} {above : Site} (h : walk.StandsAt above)
    (crossing : Crossing) (site : Site) (sites : List Site) (closed : Nat) (index : Nat)
    (rest : List Instruction) :
    readFrom types index ((walk.across crossing above.location site).having sites closed)
        (crossing.exit above.location :: .mark above.location :: rest) =
      readFrom types (index + 1 + 1)
        (walk.having (site :: sites) (closed + crossing.optionals)) rest := by
  rw [readFrom_cons types index (readInstruction_exit h crossing types index _ site sites closed),
    prepend_nil, readFrom_cons types (index + 1)
      (readInstruction_mark (h.having _ _) types (index + 1) _), prepend_nil]

/-- Reading branches enters their vertices in order and comes back to the vertex above them, with
the same path and the same open scopes. -/
theorem readFrom_branches (types : TypeTable) (branches : Branches) {walk : Walk} {above : Site}
    (h : walk.StandsAt above) (habove : types.typeName? above.location = some above.currentType)
    {parent next : Nat}
    (hreadable : Readable types walk branches (branches.places above parent next))
    (index : Nat) (rest : List Instruction) :
    ∃ index', readFrom types index walk (branches.stream above.location ++ rest) =
      prepend (branches.blocks above) (readFrom types index'
        (walk.having (sitesOf (branches.places above parent next)) branches.optionals) rest) := by
  induction branches generalizing walk above parent next index rest with
  | none =>
      refine ⟨index, ?_⟩
      simp [Branches.stream, Branches.blocks, Branches.places, Branches.optionals, sitesOf]
  | branch crossing vertex below beside ihBelow ihBeside =>
      -- The walk is inside the vertex while what lies below is read, and back after its exit, with
      -- more sites entered; the invariant is that it stands at the vertex above.
      let site := above.below crossing vertex
      let first : Place := ⟨some (parent, above), crossing.relation above vertex, vertex⟩
      let inner := below.places site next (next + 1)
      let outer := beside.places above parent (next + 1 + below.size)
      have hreadable : Readable types walk (.branch crossing vertex below beside)
          (first :: (inner ++ outer)) := hreadable
      have hnew := hreadable.fresh first List.mem_cons_self
      have hinside : (walk.across crossing above.location site).StandsAt site :=
        h.across crossing vertex (Walk.find?_of_not_hasEntered hnew)
      have htype := (hreadable.registered first List.mem_cons_self).1
      let tail := crossing.exit above.location :: .mark above.location ::
        (beside.stream above.location ++ rest)
      obtain ⟨index₁, hentry⟩ := readFrom_entry h habove hreadable index
        (below.stream site.location ++ tail)
      obtain ⟨index₂, hbelow⟩ := ihBelow hinside htype (hreadable.inward above.location) index₁ tail
      have hexit := readFrom_exit types h crossing site (sitesOf inner) below.optionals index₂
        (beside.stream above.location ++ rest)
      obtain ⟨index₃, hbeside⟩ := ihBeside
        (h.having (sitesOf (first :: inner)) (below.optionals + crossing.optionals)) habove
        (hreadable.onward (below.optionals + crossing.optionals)) (index₂ + 1 + 1) rest
      have hstream : (Branches.branch crossing vertex below beside).stream above.location ++ rest =
          crossing.entry :: (vertex.body ++ .mark site.location ::
            (below.stream site.location ++ tail)) := by
        simp [Branches.stream, tail, site, Site.below]
      refine ⟨index₃, ?_⟩
      have hsites : sitesOf (first :: inner) ++ sitesOf outer =
          sitesOf ((Branches.branch crossing vertex below beside).places above parent next) := by
        simp [sitesOf, Branches.places, first, inner, outer, site, Crossing.relation]
      rw [hstream, hentry, hbelow, hexit]
      change prepend _ (prepend _ (readFrom types _ (walk.having (sitesOf (first :: inner)) _) _)) =
        _
      rw [hbeside, Walk.having_having, hsites]
      simp [Branches.blocks, Branches.optionals, site]

theorem isResult_of_mem_body {vertex : PatternVertex} {instruction : Instruction}
    (h : instruction ∈ vertex.body) : instruction.isResult = false := by
  simp only [PatternVertex.body, List.mem_append, List.mem_map] at h
  rcases h with ⟨filter, -, rfl⟩ | ⟨output, -, rfl⟩
  · rfl
  · rfl

/-- Only the last instruction of a stream lists what is given out. -/
theorem isResult_of_mem_stream {branches : Branches} {above : Location} {instruction : Instruction}
    (h : instruction ∈ branches.stream above) : instruction.isResult = false := by
  induction branches generalizing above with
  | none => simp [Branches.stream] at h
  | branch crossing vertex below beside ihBelow ihBeside =>
      simp only [Branches.stream, List.cons_append, List.append_assoc, List.mem_cons,
        List.mem_append] at h
      rcases h with rfl | hbody | rfl | hbelow | rfl | rfl | hbeside
      · cases hkind : crossing.kind <;> simp [Crossing.entry, hkind, Instruction.isResult]
      · exact isResult_of_mem_body hbody
      · rfl
      · exact ihBelow hbelow
      · cases hkind : crossing.kind <;> simp [Crossing.exit, hkind, Instruction.isResult]
      · rfl
      · exact ihBeside hbeside

theorem checkEnvelope_stream (pattern : Pattern) : checkEnvelope pattern.stream = .ok () := by
  have hmiddle : ∀ instruction ∈ .start pattern.startClass :: pattern.vertex.body ++
      .mark (.root pattern.startClass) :: pattern.branches.stream (.root pattern.startClass),
      instruction.isResult = false := by
    intro instruction h
    simp only [List.cons_append, List.mem_cons, List.mem_append] at h
    rcases h with rfl | hbody | rfl | hstream
    · rfl
    · exact isResult_of_mem_body hbody
    · rfl
    · exact isResult_of_mem_stream hstream
  have hnone : pattern.stream.dropLast.findIdx? Instruction.isResult = none := by
    rw [List.findIdx?_eq_none_iff, Pattern.stream, List.dropLast_concat]
    exact hmiddle
  have hhead : pattern.stream.head?.any Instruction.isStart = true := rfl
  have hlast : pattern.stream.getLast?.any Instruction.isResult = true := by
    rw [Pattern.stream, List.getLast?_concat]
    rfl
  simp [checkEnvelope, hhead, hlast, hnone, pure, Except.pure]

end Query

namespace Pattern

def blocks (pattern : Pattern) : Blocks where
  blocks := .relation ⟨pattern.rootSite, .root, none⟩ ::
    (pattern.vertex.blocks pattern.rootSite ++ pattern.branches.blocks pattern.rootSite)
  outputs := pattern.outputs

open Query

def rootWalk (pattern : Pattern) : Walk :=
  ⟨[pattern.rootSite.location], [],
    OrderedMap.empty.adjoin [(pattern.rootSite.location, pattern.rootSite)], 0⟩

theorem rootWalk_standsAt (pattern : Pattern) : pattern.rootWalk.StandsAt pattern.rootSite where
  path := ⟨[], rfl⟩
  nonempty := by simp [rootSite, Location.root]
  recorded := by simp [rootWalk, OrderedMap.find?_adjoin]
  optional := rfl
  fold := rfl
  recursion := rfl
  heights := by simp [rootWalk]

theorem hasEntered_rootWalk (pattern : Pattern) (location : Location) :
    pattern.rootWalk.hasEntered location ↔ location = pattern.rootSite.location := by
  change (Walk.start.having [pattern.rootSite] 0).hasEntered location ↔ _
  rw [Walk.hasEntered_having]
  simp [Walk.start, Walk.hasEntered, OrderedMap.contains]

theorem readInstruction_start {pattern : Pattern} {types : TypeTable}
    (h : pattern.RegisteredIn types) (index : Nat) :
    readInstruction types index (some pattern.rootSite.location) Walk.start
        (.start pattern.startClass) =
      .ok ([.relation ⟨pattern.rootSite, .root, none⟩], pattern.rootWalk) := by
  obtain ⟨htype, hparent⟩ := h pattern.rootPlace List.mem_cons_self
  have hroot : pattern.rootSite.location.parent? = none := rfl
  have hnone : types.parent? pattern.rootSite.location = none := by
    rcases hparent with hnone | hsame
    · exact hnone
    · exact hsame.trans hroot
  have houter : Walk.outerType types pattern.rootSite.location = .ok none := by
    simp [Walk.outerType, hnone, hroot]
  have hfresh : Walk.start.sites.find? pattern.rootSite.location = none := rfl
  have henter : Walk.start.enter types pattern.rootSite.location =
      .ok (pattern.rootSite, pattern.rootWalk) :=
    Walk.enter_eq_ok Walk.start hfresh htype houter rfl
  simp only [readInstruction, needLocation, ok_bind, enterRelation, henter]
  rfl

theorem readable_rootWalk {pattern : Pattern} {types : TypeTable} (h : pattern.WellFormed)
    (hregistered : pattern.RegisteredIn types) :
    Readable types pattern.rootWalk pattern.branches
      (pattern.branches.places pattern.rootSite 0 1) where
  distinct := Branches.nodup_places h.distinctSteps _ _ _
  fresh := by
    intro place hplace
    rw [hasEntered_rootWalk]
    intro hsame
    have hlt := Branches.length_lt_of_mem_places hplace
    rw [hsame] at hlt
    exact Nat.lt_irrefl _ hlt
  unnested := h.unnested
  closed := fun _ _ => rfl
  registered := fun place hplace => hregistered place (List.mem_cons_of_mem _ hplace)
  tagged := by
    intro before place after hsplit filter hfilter tag htag
    have hplaces : pattern.places = (pattern.rootPlace :: before) ++ place :: after := by
      rw [Pattern.places, hsplit]
      rfl
    have htagged := h.tagged_of_split hplaces hfilter htag
    simp only [List.cons_append, List.map_cons, List.mem_cons] at htagged
    rcases htagged with hroot | hmem
    · exact .inr ((pattern.hasEntered_rootWalk _).2 hroot)
    · exact .inl hmem

/-- The stream of a pattern is read to the blocks of the pattern. -/
theorem blocks_stream {pattern : Pattern} {types : TypeTable} (h : pattern.WellFormed)
    (hregistered : pattern.RegisteredIn types) :
    (Query.mk pattern.stream types).blocks = .ok pattern.blocks := by
  let root := pattern.rootSite.location
  let tail := pattern.branches.stream root ++ [.result pattern.outputs]
  have hmark : nextMarked? (.mark root :: tail) = some root := rfl
  have hstart : readInstruction types 0
      (nextMarked? (.start pattern.startClass :: (pattern.vertex.body ++ .mark root :: tail)))
        Walk.start (.start pattern.startClass) =
      .ok ([.relation ⟨pattern.rootSite, .root, none⟩], pattern.rootWalk) := by
    rw [nextMarked?_cons rfl, nextMarked?_body_append, hmark]
    exact readInstruction_start hregistered 0
  have htags : ∀ filter ∈ pattern.vertex.filters, ∀ tag ∈ filter.tag,
      (pattern.rootWalk.sites.find? tag.location).isSome := by
    intro filter hfilter tag htag
    have hfirst : pattern.places =
        [] ++ pattern.rootPlace :: pattern.branches.places pattern.rootSite 0 1 := rfl
    have htagged := h.tagged_of_split hfirst hfilter htag
    rw [List.nil_append, List.map_singleton, List.mem_singleton] at htagged
    exact (pattern.hasEntered_rootWalk _).2 htagged
  have hstands := pattern.rootWalk_standsAt
  have htype := (hregistered pattern.rootPlace List.mem_cons_self).1
  obtain ⟨index₁, hbody⟩ := readFrom_body types hmark hstands.recorded htags 1
  obtain ⟨index₂, hbranches⟩ := readFrom_branches types pattern.branches hstands htype
    (readable_rootWalk h hregistered) (index₁ + 1) [.result pattern.outputs]
  have hstream : pattern.stream =
      .start pattern.startClass :: (pattern.vertex.body ++ .mark root :: tail) := by
    simp [Pattern.stream, tail, root, rootSite]
  let last := pattern.rootWalk.having (sitesOf (pattern.branches.places pattern.rootSite 0 1))
    pattern.branches.optionals
  have hread : readFrom types 0 Walk.start pattern.stream = .ok (pattern.blocks, last) := by
    rw [hstream, readFrom_cons types 0 hstart, hbody,
      readFrom_cons types index₁ (readInstruction_mark hstands types index₁ _), hbranches, readFrom]
    simp [prepend, Except.map, blocks, last]
  rw [Query.blocks, checkEnvelope_stream, ok_bind, hread, ok_bind]
  rfl

end Pattern

end TraversalSql
