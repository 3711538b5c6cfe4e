import TraversalSql.Proofs.Assembly

/-!
Query patterns: what a query asks for, as a tree.  A pattern has a stream of instructions, in which
the tree is only implicit, and a query tree, in which every vertex has its place in the order of
the stream.
-/

namespace TraversalSql

/-- A filter on a field of a vertex. -/
structure PatternFilter where
  field : String
  operator : FilterOperator
  params : List String
  tag : Option FieldRef
deriving DecidableEq, Repr

/-- A field that a vertex gives out under an alias. -/
structure PatternOutput where
  field : String
  aliasName : String
deriving DecidableEq, Repr

/-- A vertex of a pattern. -/
structure PatternVertex where
  typeName : String
  filters : List PatternFilter
  outputs : List PatternOutput
deriving DecidableEq, Repr

/-- The ways to reach a vertex from the one above it. -/
inductive CrossingKind where
  | mandatory
  | optional
  | recurse (depth : Nat)
  | fold
deriving DecidableEq, Repr

/-- The crossing of an edge in one of these ways. -/
structure Crossing where
  traversal : Traversal
  kind : CrossingKind
deriving DecidableEq, Repr

/-- What lies below a vertex: nothing, or a first branch with what lies below its own vertex, and
the branches beside it. -/
inductive Branches where
  | none
  | branch (crossing : Crossing) (vertex : PatternVertex) (below beside : Branches)
deriving DecidableEq, Repr

/-- A pattern: the class at which it starts, the vertex there, and what lies below it. -/
structure Pattern where
  startClass : String
  vertex : PatternVertex
  branches : Branches
deriving DecidableEq, Repr

namespace CrossingKind

/-- The kind of scope that a crossing opens. -/
def scope? : CrossingKind → Option ScopeKind
  | .mandatory => none
  | .optional => some .optional
  | .recurse _ => some .recursive
  | .fold => some .fold

/-- The kind of the vertex that a crossing reaches. -/
def relationKind : CrossingKind → RelationKind
  | .mandatory => .traverse
  | .optional => .traverse
  | .recurse depth => .recurse depth
  | .fold => .fold

end CrossingKind

namespace Crossing

def step (crossing : Crossing) : String := crossing.traversal.step

/-- The instruction that starts a branch. -/
def entry (crossing : Crossing) : Instruction :=
  match crossing.kind with
  | .mandatory => .traverse crossing.traversal false
  | .optional => .traverse crossing.traversal true
  | .recurse depth => .recurse crossing.traversal depth
  | .fold => .fold crossing.traversal

/-- The instruction that ends a branch and leads back to the vertex above it. -/
def exit (crossing : Crossing) (above : Location) : Instruction :=
  match crossing.kind with
  | .mandatory => .backtrack above false
  | .optional => .backtrack above true
  | .recurse _ => .backtrack above false
  | .fold => .unfold

end Crossing

def PatternFilter.instruction (filter : PatternFilter) : Instruction :=
  .filter filter.field filter.operator.name filter.params filter.tag

def PatternOutput.instruction (output : PatternOutput) : Instruction :=
  .output output.field output.aliasName

/-- The instructions between the entry of a vertex and the mark of its location. -/
def PatternVertex.body (vertex : PatternVertex) : List Instruction :=
  vertex.filters.map PatternFilter.instruction ++ vertex.outputs.map PatternOutput.instruction

/-- The site of a vertex that is reached from another one: it is in all scopes of the other one and
in the one that the crossing opens. -/
def Site.below (above : Site) (crossing : Crossing) (vertex : PatternVertex) : Site where
  location := above.location.child crossing.step
  inOptional := above.inOptional || crossing.kind.scope? == some .optional
  inFold := above.inFold || crossing.kind.scope? == some .fold
  inRecursion := above.inRecursion || crossing.kind.scope? == some .recursive
  currentType := vertex.typeName
  outerType := some above.currentType

/-- A vertex of a pattern where it stands: the place and the site of the vertex above it, and its
relation. -/
structure Place where
  above : Option (Nat × Site)
  relation : Relation
  vertex : PatternVertex
deriving DecidableEq, Repr

def Place.location (place : Place) : Location := place.relation.site.location

namespace Branches

def size : Branches → Nat
  | .none => 0
  | .branch _ _ below beside => 1 + below.size + beside.size

def stream (above : Location) : Branches → List Instruction
  | .none => []
  | .branch crossing vertex below beside =>
      let location := above.child crossing.step
      crossing.entry :: vertex.body ++ .mark location :: below.stream location
        ++ crossing.exit above :: .mark above :: beside.stream above

/-- The places of vertices, each before those below it and these before those beside it.  The vertex
above has the place `parent`, and the first vertex gets the place `next`. -/
def places (above : Site) (parent next : Nat) : Branches → List Place
  | .none => []
  | .branch crossing vertex below beside =>
      let site := above.below crossing vertex
      let relation := ⟨site, crossing.kind.relationKind, some crossing.traversal⟩
      ⟨some (parent, above), relation, vertex⟩ ::
        (below.places site next (next + 1)
          ++ beside.places above parent (next + 1 + below.size))

/-- The steps to the first vertices of branches. -/
def steps : Branches → List String
  | .none => []
  | .branch crossing _ _ beside => crossing.step :: beside.steps

/-- No two branches of a vertex start with the same step. -/
def DistinctSteps : Branches → Prop
  | .none => True
  | .branch crossing _ below beside =>
      crossing.step ∉ beside.steps ∧ below.DistinctSteps ∧ beside.DistinctSteps

instance decidableDistinctSteps : (branches : Branches) → Decidable branches.DistinctSteps
  | .none => .isTrue trivial
  | .branch _ _ below beside =>
      have := below.decidableDistinctSteps
      have := beside.decidableDistinctSteps
      inferInstanceAs (Decidable (_ ∧ _ ∧ _))

/-- Some crossing opens a scope of a kind. -/
def Opens (kind : ScopeKind) : Branches → Prop
  | .none => False
  | .branch crossing _ below beside =>
      crossing.kind.scope? = some kind ∨ below.Opens kind ∨ beside.Opens kind

instance decidableOpens (kind : ScopeKind) :
    (branches : Branches) → Decidable (branches.Opens kind)
  | .none => .isFalse id
  | .branch _ _ below beside =>
      have := below.decidableOpens kind
      have := beside.decidableOpens kind
      inferInstanceAs (Decidable (_ ∨ _ ∨ _))

/-- No scope lies below another one of its kind. -/
def Unnested : Branches → Prop
  | .none => True
  | .branch crossing _ below beside =>
      (∀ kind ∈ crossing.kind.scope?, ¬ below.Opens kind) ∧ below.Unnested ∧ beside.Unnested

instance decidableUnnested : (branches : Branches) → Decidable branches.Unnested
  | .none => .isTrue trivial
  | .branch _ _ below beside =>
      have := below.decidableUnnested
      have := beside.decidableUnnested
      inferInstanceAs (Decidable (_ ∧ _ ∧ _))

end Branches

namespace Pattern

def rootSite (pattern : Pattern) : Site where
  location := .root pattern.startClass
  inOptional := false
  inFold := false
  inRecursion := false
  currentType := pattern.vertex.typeName
  outerType := none

def rootPlace (pattern : Pattern) : Place :=
  ⟨none, ⟨pattern.rootSite, .root, none⟩, pattern.vertex⟩

/-- The places of all vertices, in the order in which the stream enters them. -/
def places (pattern : Pattern) : List Place :=
  pattern.rootPlace :: pattern.branches.places pattern.rootSite 0 1

/-- What the vertex of a place gives out, each alias with its source. -/
def outputsOf (place : Place) : List (String × FieldRef) :=
  place.vertex.outputs.map fun output => (output.aliasName, ⟨place.location, output.field⟩)

def outputs (pattern : Pattern) : List (String × FieldRef) := pattern.places.flatMap outputsOf

def stream (pattern : Pattern) : List Instruction :=
  let root := Location.root pattern.startClass
  .start pattern.startClass :: pattern.vertex.body ++ .mark root :: pattern.branches.stream root
    ++ [.result pattern.outputs]

/-- The place of the vertex at a location. -/
def placeAt? (pattern : Pattern) (location : Location) : Option Nat :=
  pattern.places.findIdx? fun place => place.location == location

/-- The filter of a vertex as it is attached to its node. -/
def predicateOf (pattern : Pattern) (site : Site) (filter : PatternFilter) : NodePredicate where
  predicate := ⟨site, filter.field, filter.params, filter.operator, filter.tag⟩
  tagNode := filter.tag.bind fun tag => pattern.placeAt? tag.location

/-- The vertices below the one at a place that are reached in a given way, each with its own
place. -/
def placesBelow (pattern : Pattern) (id : Nat) (way : RelationKind → Bool) : List (Place × Nat) :=
  pattern.places.zipIdx.filter fun (place, _) =>
    (place.above.map Prod.fst) == some id && way place.relation.kind

/-- The key that a vertex exposes to a recursion below it. -/
def linkTo (site : Site) (place : Place) : Option Link :=
  place.relation.edge.map fun edge => ⟨site, edge, place.location⟩

def node (pattern : Pattern) (id : Nat) (place : Place) : Node where
  id := id
  relation := place.relation
  parent := place.above.map Prod.fst
  children := (pattern.placesBelow id RelationKind.isTraverse).map Prod.snd
  recursions := (pattern.placesBelow id RelationKind.isRecursion).map Prod.snd
  folds := (pattern.placesBelow id RelationKind.isFold).map Prod.snd
  outputs :=
    let before := (pattern.places.take id).flatMap outputsOf
    (place.vertex.outputs.zipIdx before.length).map fun (output, index) =>
      ⟨output.field, output.aliasName, index⟩
  predicates := place.vertex.filters.map (pattern.predicateOf place.relation.site)
  links := (pattern.placesBelow id RelationKind.isRecursion).filterMap
    fun (below, id) => (linkTo place.relation.site below).map (id, ·)

def tree (pattern : Pattern) : QueryTree :=
  ⟨pattern.places.mapIdx pattern.node, pattern.outputs.map Prod.fst⟩

/-- A pattern that a stream can describe: branches of a vertex start with different steps, no scope
lies below one of its kind, and a tag names the vertex of its filter or one entered before. -/
structure WellFormed (pattern : Pattern) : Prop where
  distinctSteps : pattern.branches.DistinctSteps
  unnested : pattern.branches.Unnested
  tagged : ∀ entry ∈ pattern.places.zipIdx, ∀ filter ∈ entry.1.vertex.filters,
    ∀ tag ∈ filter.tag, tag.location ∈ (pattern.places.take (entry.2 + 1)).map Place.location

instance (pattern : Pattern) : Decidable pattern.WellFormed :=
  decidable_of_iff (pattern.branches.DistinctSteps ∧ pattern.branches.Unnested ∧
      ∀ entry ∈ pattern.places.zipIdx, ∀ filter ∈ entry.1.vertex.filters,
        ∀ tag ∈ filter.tag, tag.location ∈ (pattern.places.take (entry.2 + 1)).map Place.location)
    ⟨fun ⟨hsteps, hunnested, htagged⟩ => ⟨hsteps, hunnested, htagged⟩,
      fun h => ⟨h.distinctSteps, h.unnested, h.tagged⟩⟩

/-- A table that gives every vertex its type, and no vertex another parent than the one above it. -/
def RegisteredIn (pattern : Pattern) (types : TypeTable) : Prop :=
  ∀ place ∈ pattern.places,
    types.typeName? place.location = some place.vertex.typeName ∧
      (types.parent? place.location = none ∨
        types.parent? place.location = place.location.parent?)

instance (pattern : Pattern) (types : TypeTable) : Decidable (pattern.RegisteredIn types) :=
  inferInstanceAs (Decidable (∀ _ ∈ _, _))

/-- The table in which the vertices are registered in order. -/
def types (pattern : Pattern) : TypeTable :=
  pattern.places.foldl (fun table place => table.register place.location place.vertex.typeName)
    .empty

end Pattern

namespace Branches

@[simp]
theorem length_places (branches : Branches) (above : Site) (parent next : Nat) :
    (branches.places above parent next).length = branches.size := by
  induction branches generalizing above parent next with
  | none => rfl
  | branch crossing vertex below beside ihBelow ihBeside =>
      simp only [places, size, List.length_cons, List.length_append, ihBelow, ihBeside]
      omega

/-- A vertex lies at or below the end of one of the first steps. -/
theorem exists_step_of_mem_places {branches : Branches} {above : Site} {parent next : Nat}
    {place : Place} (h : place ∈ branches.places above parent next) :
    ∃ step ∈ branches.steps, (above.location.steps ++ [step]) <+: place.location.steps := by
  induction branches generalizing above parent next with
  | none => simp [places] at h
  | branch crossing vertex below beside ihBelow ihBeside =>
      simp only [places, List.mem_cons, List.mem_append] at h
      rcases h with rfl | hbelow | hbeside
      · exact ⟨crossing.step, by simp [steps], List.prefix_refl _⟩
      · obtain ⟨step, -, hprefix⟩ := ihBelow hbelow
        refine ⟨crossing.step, by simp [steps], ?_⟩
        exact (List.prefix_append _ _).trans hprefix
      · obtain ⟨step, hstep, hprefix⟩ := ihBeside hbeside
        exact ⟨step, by simp [steps, hstep], hprefix⟩

/-- Every vertex below another one has a longer location. -/
theorem length_lt_of_mem_places {branches : Branches} {above : Site} {parent next : Nat}
    {place : Place} (h : place ∈ branches.places above parent next) :
    above.location.steps.length < place.location.steps.length := by
  obtain ⟨step, -, hprefix⟩ := exists_step_of_mem_places h
  have := hprefix.length_le
  simp only [List.length_append, List.length_singleton] at this
  omega

/-- A location continues another one by one step only. -/
theorem step_eq_of_isPrefix {steps location : List String} {step other : String}
    (hstep : (steps ++ [step]) <+: location) (hother : (steps ++ [other]) <+: location) :
    step = other := by
  have hprefix := List.prefix_of_prefix_length_le hstep hother (by simp)
  have heq := hprefix.eq_of_length (by simp)
  simpa using heq

/-- No two vertices share a location. -/
theorem nodup_places {branches : Branches} (hsteps : branches.DistinctSteps) (above : Site)
    (parent next : Nat) :
    ((branches.places above parent next).map Place.location).Nodup := by
  induction branches generalizing above parent next with
  | none => simp [places]
  | branch crossing vertex below beside ihBelow ihBeside =>
      obtain ⟨hstep, hbelow, hbeside⟩ := hsteps
      have hothers : ∀ place ∈ beside.places above parent (next + 1 + below.size),
          ¬ (above.location.steps ++ [crossing.step]) <+: place.location.steps := by
        intro place hplace hprefix
        obtain ⟨other, hother, hprefix'⟩ := exists_step_of_mem_places hplace
        exact hstep (step_eq_of_isPrefix hprefix hprefix' ▸ hother)
      simp only [places, List.map_cons, List.map_append, List.nodup_cons, List.mem_append,
        List.mem_map, List.nodup_append', List.disjoint_left]
      refine ⟨?_, ihBelow hbelow _ _ _, ihBeside hbeside _ _ _, ?_⟩
      · rintro (⟨place, hplace, heq⟩ | ⟨place, hplace, heq⟩)
        · have hlt := length_lt_of_mem_places hplace
          rw [heq] at hlt
          exact Nat.lt_irrefl _ hlt
        · exact hothers place hplace (heq ▸ List.prefix_refl _)
      · rintro location ⟨place, hplace, rfl⟩ ⟨other, hother, heq⟩
        obtain ⟨step, -, hprefix⟩ := exists_step_of_mem_places hplace
        exact hothers other hother (heq ▸ (List.prefix_append _ _).trans hprefix)

end Branches

theorem Pattern.nodup_places {pattern : Pattern} (h : pattern.branches.DistinctSteps) :
    (pattern.places.map Place.location).Nodup := by
  rw [Pattern.places, List.map_cons, List.nodup_cons]
  refine ⟨?_, Branches.nodup_places h _ _ _⟩
  simp only [List.mem_map, not_exists, not_and]
  intro place hplace heq
  have hlt := Branches.length_lt_of_mem_places hplace
  rw [heq] at hlt
  exact Nat.lt_irrefl _ hlt

/-- A tag names the vertex of its filter or one of those before it. -/
theorem Pattern.WellFormed.tagged_of_split {pattern : Pattern} (h : pattern.WellFormed)
    {before after : List Place} {place : Place}
    (hsplit : pattern.places = before ++ place :: after) {filter : PatternFilter}
    (hfilter : filter ∈ place.vertex.filters) {tag : FieldRef} (htag : tag ∈ filter.tag) :
    tag.location ∈ (before ++ [place]).map Place.location := by
  have hentry : (place, before.length) ∈ pattern.places.zipIdx := by
    rw [List.mem_zipIdx_iff_getElem?]
    simp [hsplit]
  have htake : pattern.places.take (before.length + 1) = before ++ [place] := by
    rw [hsplit, List.append_cons, List.take_left' (by simp)]
  rw [← htake]
  exact h.tagged _ hentry filter hfilter tag htag

end TraversalSql
