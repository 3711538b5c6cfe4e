import TraversalSql.Proofs.PatternReading
import TraversalSql.Compile

/-!
The blocks of a pattern form the query tree of the pattern, so that reading the stream of a pattern
gives the tree back.
-/

namespace TraversalSql

open Outcome

namespace Place

/-- The key that a recursion asks of the vertex above it. -/
def asked? (place : Place) : Option Link :=
  if place.relation.kind.isRecursion then
    place.above.bind fun above => Pattern.linkTo above.2 place
  else none

/-- The blocks of the vertex at a place: the key that it asks for, the vertex, its filters and its
outputs. -/
def blocks (place : Place) : List Block :=
  place.asked?.toList.map Block.link
    ++ .relation place.relation :: place.vertex.blocks place.relation.site

/-- The vertex at a place was reached by a crossing from one of the places before it. -/
def HangsOff (before : List Place) (place : Place) : Prop :=
  ∃ parent owner crossing, before[parent]? = some owner ∧
    place.above = some (parent, owner.relation.site) ∧
    place.relation = Crossing.relation crossing owner.relation.site place.vertex

theorem mem_blocks {place : Place} {block : Block} :
    block ∈ place.blocks ↔
      (∃ link ∈ place.asked?, block = .link link) ∨ block = .relation place.relation ∨
        (∃ filter ∈ place.vertex.filters,
          block = .predicate ⟨place.relation.site, filter.field, filter.params, filter.operator,
            filter.tag⟩) ∨
        ∃ output ∈ place.vertex.outputs,
          block = .selection ⟨place.relation.site, output.field, output.aliasName⟩ := by
  simp only [blocks, PatternVertex.blocks, List.mem_append, List.mem_cons, List.mem_map,
    Option.mem_toList, Option.mem_def, @eq_comm Block _ block]

/-- A key is asked of the vertex above, for the vertex itself. -/
theorem mem_asked? {place : Place} {link : Link} (h : link ∈ place.asked?) :
    ∃ parent, place.above = some (parent, link.site) ∧ link.target = place.location := by
  unfold asked? at h
  split at h
  · simp only [Option.mem_def, Option.bind_eq_some_iff, Pattern.linkTo, Option.map_eq_some_iff] at h
    obtain ⟨⟨parent, site⟩, habove, edge, -, rfl⟩ := h
    exact ⟨parent, habove, rfl⟩
  · exact absurd h (by simp)

end Place

theorem Crossing.links_eq (crossing : Crossing) (above : Site) (vertex : PatternVertex)
    (parent : Nat) :
    crossing.links above ++ .relation (crossing.relation above vertex) ::
        vertex.blocks (above.below crossing vertex) =
      Place.blocks ⟨some (parent, above), crossing.relation above vertex, vertex⟩ := by
  obtain ⟨traversal, kind⟩ := crossing
  cases kind <;> rfl

private theorem split_of_append_eq {α : Type} {left right first rest : List α} {a : α}
    (h : left ++ right = first ++ a :: rest) :
    (∃ more, left = first ++ a :: more) ∨
      ∃ more, first = left ++ more ∧ right = more ++ a :: rest := by
  rcases List.append_eq_append_iff.1 h with ⟨more, rfl, hright⟩ | ⟨more, hleft, hmore⟩
  · exact .inr ⟨more, rfl, hright⟩
  · rcases List.cons_eq_append_iff.1 hmore with ⟨rfl, hright⟩ | ⟨more, rfl, -⟩
    · exact .inr ⟨[], by simpa using hleft.symm, hright⟩
    · exact .inl ⟨more, hleft⟩

namespace Branches

theorem blocks_eq_flatMap (branches : Branches) (above : Site) (parent next : Nat) :
    branches.blocks above = (branches.places above parent next).flatMap Place.blocks := by
  induction branches generalizing above parent next with
  | none => rfl
  | branch crossing vertex below beside ihBelow ihBeside =>
      have hfirst := crossing.links_eq above vertex parent
      rw [places, List.flatMap_cons, List.flatMap_append, ← ihBelow, ← ihBeside]
      change _ = Place.blocks ⟨some (parent, above), crossing.relation above vertex, vertex⟩ ++ _
      rw [← hfirst]
      simp [blocks]

/-- A place of branches stands after the places that it hangs off. -/
theorem place_hangsOff {branches : Branches} {owner : Place} {parent : Nat} {before : List Place}
    (howner : before[parent]? = some owner) {first rest : List Place} {place : Place}
    (hsplit : branches.places owner.relation.site parent before.length =
      first ++ place :: rest) :
    place.HangsOff (before ++ first) := by
  induction branches generalizing owner parent before first rest with
  | none => simp [places] at hsplit
  | branch crossing vertex below beside ihBelow ihBeside =>
      have hlt := (List.getElem?_eq_some_iff.1 howner).1
      let entered : Place :=
        ⟨some (parent, owner.relation.site), crossing.relation owner.relation.site vertex, vertex⟩
      have hentered : (before ++ [entered])[before.length]? = some entered := by simp
      have hplaces : (branch crossing vertex below beside).places owner.relation.site parent
          before.length = entered ::
            (below.places entered.relation.site before.length (before ++ [entered]).length ++
              beside.places owner.relation.site parent (before.length + 1 + below.size)) := by
        simp [places, entered, Crossing.relation]
      rw [hplaces] at hsplit
      rcases List.cons_eq_append_iff.1 hsplit with ⟨rfl, hfirst⟩ | ⟨first, rfl, hrest⟩
      · obtain ⟨rfl, -⟩ := List.cons.inj hfirst
        exact ⟨parent, owner, crossing, by simpa using howner, rfl, rfl⟩
      · rw [show before ++ entered :: first = before ++ [entered] ++ first by simp]
        rcases split_of_append_eq hrest with ⟨more, hbelow⟩ | ⟨more, rfl, hbeside⟩
        · exact ihBelow hentered hbelow
        · let passed := before ++ [entered] ++
            below.places entered.relation.site before.length (before ++ [entered]).length
          have hpassed : passed[parent]? = some owner := by
            simp only [passed, List.append_assoc, List.getElem?_append_left hlt, howner]
          have hlength : passed.length = before.length + 1 + below.size := by
            simp only [passed, List.length_append, List.length_singleton, length_places]
          rw [← hlength] at hbeside
          rw [← List.append_assoc]
          exact ihBeside hpassed hbeside

end Branches

namespace Pattern

theorem blocks_eq_flatMap (pattern : Pattern) :
    pattern.blocks.blocks = pattern.places.flatMap Place.blocks := by
  rw [places, List.flatMap_cons, ← Branches.blocks_eq_flatMap]
  rfl

theorem relations_blocks (pattern : Pattern) :
    pattern.blocks.relations = pattern.places.map Place.relation := by
  rw [Blocks.relations, blocks_eq_flatMap, List.filterMap_flatMap, List.map_eq_flatMap]
  apply List.flatMap_congr
  intro place _
  have hvertex : (place.vertex.blocks place.relation.site).filterMap Block.relation? = [] := by
    simp [PatternVertex.blocks, Block.relation?]
  have hasked : (place.asked?.toList.map Block.link).filterMap Block.relation? = [] := by
    simp [Block.relation?]
  rw [Place.blocks, List.filterMap_append, hasked, List.filterMap_cons, Block.relation?, hvertex]
  rfl

theorem place?_blocks (pattern : Pattern) (location : Location) :
    pattern.blocks.place? location = pattern.placeAt? location := by
  rw [Blocks.place?, relations_blocks, placeAmong, placeAt?, List.findIdx?_map]
  rfl

theorem map_location_relations (pattern : Pattern) :
    pattern.blocks.relations.map Relation.location = pattern.places.map Place.location := by
  rw [relations_blocks, List.map_map]
  rfl

/-- Every vertex but the first was reached by a crossing from an earlier one. -/
theorem place_hangsOff {pattern : Pattern} {before after : List Place} {place : Place}
    (hsplit : pattern.places = before ++ place :: after) (hbefore : before ≠ []) :
    place.HangsOff before := by
  cases before with
  | nil => exact absurd rfl hbefore
  | cons first before =>
      obtain ⟨rfl, hrest⟩ := List.cons.inj hsplit
      have howner : [pattern.rootPlace][0]? = some pattern.rootPlace := rfl
      exact Branches.place_hangsOff howner hrest

theorem steps_ne_nil {pattern : Pattern} {place : Place} (h : place ∈ pattern.places) :
    place.location.steps ≠ [] := by
  rcases List.mem_cons.1 h with rfl | hplace
  · simp [rootPlace, Place.location, rootSite, Location.root]
  · have hlt := Branches.length_lt_of_mem_places hplace
    exact List.ne_nil_of_length_pos (by omega)

/-- Every vertex but the first stands one step below an earlier one. -/
theorem exists_owner {pattern : Pattern} {index : Nat} {place : Place}
    (hplace : pattern.places[index]? = some place) (hindex : index ≠ 0) :
    ∃ parent owner, parent < index ∧ pattern.places[parent]? = some owner ∧
      place.above = some (parent, owner.relation.site) ∧
      place.relation.kind ≠ .root ∧ place.location.parent? = some owner.location := by
  have hlt := (List.getElem?_eq_some_iff.1 hplace).1
  have hbefore : pattern.places.take index ≠ [] := by
    rw [Ne, List.take_eq_nil_iff, not_or]
    exact ⟨hindex, List.ne_nil_of_length_pos (by omega)⟩
  obtain ⟨parent, owner, crossing, howner, habove, hrelation⟩ :=
    place_hangsOff (eq_take_append_cons_drop hplace) hbefore
  have hparent : parent < index := by
    have := (List.getElem?_eq_some_iff.1 howner).1
    rw [List.length_take] at this
    omega
  rw [List.getElem?_take_of_lt hparent] at howner
  refine ⟨parent, owner, hparent, howner, habove, ?_, ?_⟩
  · rw [hrelation, Crossing.relation]
    cases crossing.kind <;> simp [CrossingKind.relationKind]
  · rw [Place.location, hrelation]
    exact Location.parent?_child _ _ (steps_ne_nil (List.mem_of_getElem? howner))

/-- What stands above a place is recorded with its own place and site. -/
theorem exists_owner_of_above {pattern : Pattern} {index : Nat} {place : Place}
    (hplace : pattern.places[index]? = some place) {parent : Nat} {site : Site}
    (habove : place.above = some (parent, site)) :
    ∃ owner, pattern.places[parent]? = some owner ∧ owner.relation.site = site := by
  have hindex : index ≠ 0 := by
    rintro rfl
    obtain rfl : pattern.rootPlace = place := by simpa [places] using hplace
    exact absurd habove (by simp [rootPlace])
  obtain ⟨parent', owner, -, howner, habove', -⟩ := exists_owner hplace hindex
  rw [habove] at habove'
  obtain ⟨rfl, rfl⟩ := Prod.mk.inj (Option.some.inj habove')
  exact ⟨owner, howner, rfl⟩

theorem planted {pattern : Pattern} (h : pattern.branches.DistinctSteps) :
    Planted pattern.blocks.relations where
  distinct := by
    rw [map_location_relations]
    exact nodup_places h
  hung := by
    intro before relation after hsplit hbefore
    rw [relations_blocks, List.map_eq_append_iff] at hsplit
    obtain ⟨earlier, rest, hplaces, rfl, hrest⟩ := hsplit
    obtain ⟨place, later, rfl, rfl, -⟩ := List.map_eq_cons_iff.1 hrest
    have hplace : pattern.places[earlier.length]? = some place := by simp [hplaces]
    obtain ⟨parent, owner, hlt, howner, -, hkind, hparent⟩ :=
      exists_owner hplace (by simpa using hbefore)
    rw [hplaces, List.getElem?_append_left hlt] at howner
    exact ⟨hkind, owner.relation, List.mem_map_of_mem (List.mem_of_getElem? howner), hparent⟩

/-- A place is listed at its own index. -/
theorem placeAt?_location {pattern : Pattern} (h : pattern.branches.DistinctSteps) {index : Nat}
    {place : Place} (hplace : pattern.places[index]? = some place) :
    pattern.placeAt? place.location = some index := by
  have hrelation : pattern.blocks.relations[index]? = some place.relation := by
    rw [relations_blocks, List.getElem?_map, hplace]
    rfl
  rw [← place?_blocks]
  exact placeAmong_location (planted h).distinct hrelation

theorem placeAt?_isSome {pattern : Pattern} {location : Location}
    (h : location ∈ pattern.places.map Place.location) : (pattern.placeAt? location).isSome := by
  rw [← place?_blocks, Blocks.place?, placeAmong_isSome_iff, map_location_relations]
  exact h

theorem mem_outputs_of_selection {pattern : Pattern} {place : Place}
    (hplace : place ∈ pattern.places) {output : PatternOutput}
    (houtput : output ∈ place.vertex.outputs) :
    (output.aliasName, FieldRef.mk place.location output.field) ∈ pattern.outputs :=
  List.mem_flatMap.2 ⟨place, hplace, List.mem_map_of_mem houtput⟩

/-- The blocks of a pattern form a tree. -/
theorem assemblable {pattern : Pattern} (h : pattern.WellFormed) :
    Assemblable pattern.blocks where
  nonempty := by simp [relations_blocks, places]
  planted := planted h.distinctSteps
  attachable := by
    intro block hblock
    rw [blocks_eq_flatMap, List.mem_flatMap] at hblock
    obtain ⟨place, hplace, hblock⟩ := hblock
    rcases Place.mem_blocks.1 hblock with ⟨link, hlink, rfl⟩ | rfl | ⟨filter, hfilter, rfl⟩ |
      ⟨output, -, rfl⟩
    · obtain ⟨parent, habove, htarget⟩ := Place.mem_asked? hlink
      obtain ⟨index, hindex⟩ := List.getElem?_of_mem hplace
      obtain ⟨owner, howner, hsite⟩ := exists_owner_of_above hindex habove
      simp only [Attachable, place?_blocks, htarget, ← hsite]
      exact ⟨placeAt?_isSome (List.mem_map_of_mem (List.mem_of_getElem? howner)),
        placeAt?_isSome (List.mem_map_of_mem hplace)⟩
    · trivial
    · simp only [Attachable, place?_blocks]
      refine ⟨placeAt?_isSome (List.mem_map_of_mem hplace), ?_⟩
      intro tag htag
      obtain ⟨before, after, hsplit⟩ := List.append_of_mem hplace
      obtain ⟨tagged, hmem, hlocation⟩ :=
        List.mem_map.1 (h.tagged_of_split hsplit hfilter htag)
      have htagged : tagged ∈ pattern.places := by
        rw [hsplit, List.append_cons]
        exact List.mem_append_left _ hmem
      rw [← hlocation]
      exact placeAt?_isSome (List.mem_map_of_mem htagged)
    · trivial
  sourced := by
    intro output houtput
    obtain ⟨place, hplace, houtput⟩ := List.mem_flatMap.1 houtput
    obtain ⟨field, -, rfl⟩ := List.mem_map.1 houtput
    rw [place?_blocks]
    exact placeAt?_isSome (List.mem_map_of_mem hplace)
  listed := by
    intro selection hselection
    rw [blocks_eq_flatMap, List.mem_flatMap] at hselection
    obtain ⟨place, hplace, hselection⟩ := hselection
    rw [Place.mem_blocks] at hselection
    simp only [reduceCtorEq, and_false, exists_false, false_or, Block.selection.injEq] at hselection
    obtain ⟨output, houtput, rfl⟩ := hselection
    have hmem := mem_outputs_of_selection hplace houtput
    exact List.any_eq_true.2 ⟨_, hmem, by simp [Place.location]⟩

theorem parentPlace_blocks {pattern : Pattern} (h : pattern.branches.DistinctSteps) {index : Nat}
    {place : Place} (hplace : pattern.places[index]? = some place) :
    parentPlace pattern.blocks.relations index = place.above.map Prod.fst := by
  by_cases hzero : index = 0
  · subst hzero
    obtain rfl : pattern.rootPlace = place := by simpa [places] using hplace
    rfl
  · obtain ⟨parent, owner, -, howner, habove, -, hparent⟩ := exists_owner hplace hzero
    have hrelation : pattern.blocks.relations[index]? = some place.relation := by
      rw [relations_blocks, List.getElem?_map, hplace]
      rfl
    rw [parentPlace_of_parent? hzero hrelation hparent, habove]
    exact (pattern.place?_blocks _).trans (placeAt?_location h howner)

theorem placesOff_blocks {pattern : Pattern} (h : pattern.branches.DistinctSteps) (index : Nat)
    (way : RelationKind → Bool) :
    placesOff pattern.blocks.relations index way =
      (pattern.placesBelow index way).map Prod.snd := by
  have hrange : List.range pattern.blocks.relations.length =
      pattern.places.zipIdx.map Prod.snd := by
    rw [List.zipIdx_map_snd, relations_blocks, List.length_map, List.range_eq_range']
  rw [placesOff, hrange, List.filter_map, placesBelow]
  congr 1
  apply List.filter_congr
  rintro ⟨place, below⟩ hmem
  have hplace : pattern.places[below]? = some place := List.mem_zipIdx_iff_getElem?.1 hmem
  have hparent := parentPlace_blocks h hplace
  rw [relations_blocks] at hparent
  simp [hangsOff, relations_blocks, hparent, hplace]

/-- What is gathered over all places comes from one of them, when the others give nothing. -/
theorem flatMap_places {α : Type} {pattern : Pattern} {index : Nat} {place : Place}
    (hplace : pattern.places[index]? = some place) (gather : Place → List α)
    (hothers : ∀ other place, pattern.places[other]? = some place → other ≠ index →
      gather place = []) :
    pattern.places.flatMap gather = gather place := by
  have hbefore : (pattern.places.take index).flatMap gather = [] := by
    rw [List.flatMap_eq_nil_iff]
    intro other hother
    obtain ⟨position, hlt, rfl⟩ := List.mem_take_iff_getElem.1 hother
    exact hothers position _ (List.getElem?_eq_getElem (by omega)) (by omega)
  have hafter : (pattern.places.drop (index + 1)).flatMap gather = [] := by
    rw [List.flatMap_eq_nil_iff]
    intro other hother
    obtain ⟨position, hlt, rfl⟩ := List.mem_drop_iff_getElem.1 hother
    exact hothers (index + 1 + position) _ (List.getElem?_eq_getElem (by omega)) (by omega)
  rw [eq_take_append_cons_drop hplace, List.flatMap_append, List.flatMap_cons, hbefore, hafter,
    List.nil_append, List.append_nil]

theorem predicatesAt_blocks {pattern : Pattern} (h : pattern.branches.DistinctSteps) {index : Nat}
    {place : Place} (hplace : pattern.places[index]? = some place) :
    predicatesAt pattern.blocks.place? index pattern.blocks.blocks =
      place.vertex.filters.map (pattern.predicateOf place.relation.site) := by
  have hgather : ∀ other place, pattern.places[other]? = some place →
      predicatesAt pattern.blocks.place? index place.blocks =
        if other = index then place.vertex.filters.map (pattern.predicateOf place.relation.site)
        else [] := by
    intro other place hplace
    have hlocation : pattern.placeAt? place.relation.site.location = some other :=
      placeAt?_location h hplace
    simp only [predicatesAt, Place.blocks, PatternVertex.blocks, List.filterMap_append,
      List.filterMap_map, List.filterMap_cons, Function.comp_def, List.filterMap_none,
      List.nil_append, List.append_nil, place?_blocks, hlocation, Option.some.injEq]
    split
    · exact congrFun List.filterMap_eq_map' _
    · simp
  rw [blocks_eq_flatMap, predicatesAt, List.filterMap_flatMap, flatMap_places hplace]
  · exact (hgather index place hplace).trans (if_pos rfl)
  · intro other place hplace hne
    exact (hgather other place hplace).trans (if_neg hne)

/-- The key that a recursion asks for is attached to the vertex above it. -/
theorem linksAt_place {pattern : Pattern} (h : pattern.branches.DistinctSteps) {index below : Nat}
    {place other : Place} (hplace : pattern.places[index]? = some place)
    (hother : pattern.places[below]? = some other) :
    linksAt pattern.blocks.place? index other.blocks =
      (if (other.above.map Prod.fst) == some index && other.relation.kind.isRecursion then
        (linkTo place.relation.site other).map (below, ·) else none).toList := by
  have hlocation := placeAt?_location h hother
  have hasked : linksAt pattern.blocks.place? index other.blocks =
      (other.asked?.bind fun link => if pattern.placeAt? link.site.location = some index then
        (pattern.placeAt? link.target).map (·, link) else none).toList := by
    have hvertex : linksAt pattern.blocks.place? index
        (.relation other.relation :: other.vertex.blocks other.relation.site) = [] := by
      simp [linksAt, PatternVertex.blocks]
    rw [linksAt] at hvertex
    rw [linksAt, Place.blocks, List.filterMap_append, hvertex, List.append_nil]
    cases other.asked? with
    | none => rfl
    | some link =>
        simp only [Option.toList_some, List.map_singleton, place?_blocks, Option.bind_some,
          List.filterMap_eq_flatMap_toList, List.flatMap_singleton]
  rw [hasked]
  congr 1
  cases hkind : other.relation.kind.isRecursion with
  | false => simp [Place.asked?, hkind]
  | true =>
      cases habove : other.above with
      | none => simp [Place.asked?, habove]
      | some above =>
          obtain ⟨parent, site⟩ := above
          obtain ⟨owner, howner, rfl⟩ := exists_owner_of_above hother habove
          have howned : pattern.placeAt? owner.relation.site.location = some parent :=
            placeAt?_location h howner
          simp only [Place.asked?, hkind, habove, if_true, Option.bind_some, Option.map_some,
            Bool.and_true, beq_iff_eq, Option.some.injEq]
          -- The vertex exposes a key only to the recursions that hang off it.
          by_cases hindex : parent = index
          · subst hindex
            obtain rfl : owner = place := Option.some.inj (howner.symm.trans hplace)
            cases hedge : other.relation.edge with
            | none => simp [linkTo, hedge]
            | some edge => simp [linkTo, hedge, howned, hlocation]
          · cases hedge : other.relation.edge with
            | none => simp [linkTo, hedge, hindex]
            | some edge => simp [linkTo, hedge, howned, hindex]

theorem linksAt_blocks {pattern : Pattern} (h : pattern.branches.DistinctSteps) {index : Nat}
    {place : Place} (hplace : pattern.places[index]? = some place) :
    linksAt pattern.blocks.place? index pattern.blocks.blocks =
      (pattern.placesBelow index RelationKind.isRecursion).filterMap
        fun (below, id) => (linkTo place.relation.site below).map (id, ·) := by
  rw [blocks_eq_flatMap, linksAt, List.filterMap_flatMap, placesBelow, List.filterMap_filter,
    List.filterMap_eq_flatMap_toList]
  nth_rewrite 1 [← List.zipIdx_map_fst 0 pattern.places]
  rw [List.flatMap_map]
  apply List.flatMap_congr
  rintro ⟨other, below⟩ hmem
  exact linksAt_place h hplace (List.mem_zipIdx_iff_getElem?.1 hmem)

theorem outputsAt_append (placeOf : Location → Option Nat) (place index : Nat)
    (first second : List (String × FieldRef)) :
    outputsAt placeOf place index (first ++ second) =
      outputsAt placeOf place index first ++
        outputsAt placeOf place (index + first.length) second := by
  simp [outputsAt, List.zipIdx_append]

theorem outputsAt_eq_nil {placeOf : Location → Option Nat} {place : Nat}
    {outputs : List (String × FieldRef)}
    (h : ∀ output ∈ outputs, placeOf output.2.location ≠ some place) (index : Nat) :
    outputsAt placeOf place index outputs = [] := by
  rw [outputsAt, List.filterMap_eq_nil_iff]
  rintro ⟨output, position⟩ hmem
  exact if_neg (h output (List.fst_mem_of_mem_zipIdx hmem))

theorem outputsAt_outputsOf {placeOf : Location → Option Nat} {place : Place} {index : Nat}
    (h : placeOf place.location = some index) (first : Nat) :
    outputsAt placeOf index first (outputsOf place) =
      (place.vertex.outputs.zipIdx first).map
        fun (output, index) => ⟨output.field, output.aliasName, index⟩ := by
  rw [outputsAt, outputsOf, List.zipIdx_map, List.filterMap_map]
  simp [h]

theorem outputsAt_blocks {pattern : Pattern} (h : pattern.branches.DistinctSteps) {index : Nat}
    {place : Place} (hplace : pattern.places[index]? = some place) :
    outputsAt pattern.blocks.place? index 0 pattern.blocks.outputs =
      (place.vertex.outputs.zipIdx ((pattern.places.take index).flatMap outputsOf).length).map
        fun (output, index) => ⟨output.field, output.aliasName, index⟩ := by
  have hother : ∀ position other, pattern.places[position]? = some other → position ≠ index →
      ∀ output ∈ outputsOf other, pattern.blocks.place? output.2.location ≠ some index := by
    intro position other hother hne output houtput
    obtain ⟨field, -, rfl⟩ := List.mem_map.1 houtput
    rw [place?_blocks, placeAt?_location h hother]
    simpa using hne
  have hbefore : ∀ output ∈ (pattern.places.take index).flatMap outputsOf,
      pattern.blocks.place? output.2.location ≠ some index := by
    intro output houtput
    obtain ⟨other, hmem, houtput⟩ := List.mem_flatMap.1 houtput
    obtain ⟨position, hlt, rfl⟩ := List.mem_take_iff_getElem.1 hmem
    exact hother position _ (List.getElem?_eq_getElem (by omega)) (by omega) output houtput
  have hafter : ∀ output ∈ (pattern.places.drop (index + 1)).flatMap outputsOf,
      pattern.blocks.place? output.2.location ≠ some index := by
    intro output houtput
    obtain ⟨other, hmem, houtput⟩ := List.mem_flatMap.1 houtput
    obtain ⟨position, hlt, rfl⟩ := List.mem_drop_iff_getElem.1 hmem
    exact hother (index + 1 + position) _ (List.getElem?_eq_getElem (by omega)) (by omega) output
      houtput
  have hsplit : pattern.blocks.outputs = (pattern.places.take index).flatMap outputsOf ++
      (outputsOf place ++ (pattern.places.drop (index + 1)).flatMap outputsOf) := by
    rw [← List.flatMap_cons, ← List.flatMap_append, ← eq_take_append_cons_drop hplace]
    rfl
  have hlocation : pattern.blocks.place? place.location = some index := by
    rw [place?_blocks]
    exact placeAt?_location h hplace
  rw [hsplit, outputsAt_append, outputsAt_append, outputsAt_eq_nil hbefore,
    outputsAt_eq_nil hafter, outputsAt_outputsOf hlocation, List.nil_append, List.append_nil,
    Nat.zero_add]

/-- The tree of the blocks of a pattern is the tree of the pattern. -/
theorem tree_blocks {pattern : Pattern} (h : pattern.branches.DistinctSteps) :
    pattern.blocks.tree = pattern.tree := by
  have hnodes : pattern.blocks.relations.mapIdx pattern.blocks.nodeAt =
      pattern.places.mapIdx pattern.node := by
    apply List.ext_getElem?
    intro index
    simp only [relations_blocks, List.getElem?_mapIdx, List.getElem?_map]
    cases hplace : pattern.places[index]? with
    | none => rfl
    | some place =>
        simp only [Option.map_some, Blocks.nodeAt, bareNode, Pattern.node,
          parentPlace_blocks h hplace, placesOff_blocks h, predicatesAt_blocks h hplace,
          linksAt_blocks h hplace, outputsAt_blocks h hplace]
  rw [Blocks.tree, Pattern.tree, hnodes]
  rfl

/-- A table in which vertices are registered one after the other gives each its own entry. -/
theorem find?_foldl_register {places : List Place} (hdistinct : (places.map Place.location).Nodup)
    (table : TypeTable) {place : Place} (hplace : place ∈ places) :
    (places.foldl (fun table place => table.register place.location place.vertex.typeName)
        table).find? place.location =
      some ⟨place.vertex.typeName, place.location.parent?⟩ := by
  have hkept : ∀ (others : List Place) (table : TypeTable),
      place.location ∉ others.map Place.location →
        (others.foldl (fun table place => table.register place.location place.vertex.typeName)
          table).find? place.location = table.find? place.location := by
    intro others
    induction others with
    | nil => exact fun _ _ => rfl
    | cons other others ih =>
        intro table hnotMem
        rw [List.map_cons, List.mem_cons, not_or] at hnotMem
        rw [List.foldl_cons, ih _ hnotMem.2]
        exact OrderedMap.find?_insert_of_ne _ hnotMem.1 _
  induction places generalizing table with
  | nil => exact absurd hplace List.not_mem_nil
  | cons first places ih =>
      rw [List.map_cons, List.nodup_cons] at hdistinct
      rw [List.foldl_cons]
      rcases List.mem_cons.1 hplace with rfl | hmem
      · rw [hkept _ _ hdistinct.1]
        exact OrderedMap.find?_insert_self _ _ _
      · exact ih hdistinct.2 _ hmem

/-- Every pattern whose steps are distinct has a table that registers it. -/
theorem registeredIn_types {pattern : Pattern} (h : pattern.branches.DistinctSteps) :
    pattern.RegisteredIn pattern.types := by
  intro place hplace
  have hfind : pattern.types.find? place.location =
      some ⟨place.vertex.typeName, place.location.parent?⟩ :=
    find?_foldl_register (nodup_places h) .empty hplace
  rw [TypeTable.typeName?, TypeTable.parent?, hfind]
  exact ⟨rfl, .inr rfl⟩

/-- The stream of a pattern, with a table that registers every vertex, is read to the tree of the
pattern: its vertices in order, each with its way, type, scopes, filters, outputs and keys. -/
theorem tree_stream {pattern : Pattern} {types : TypeTable} (h : pattern.WellFormed)
    (hregistered : pattern.RegisteredIn types) :
    (Query.mk pattern.stream types).tree = .ok pattern.tree := by
  rw [Query.tree, blocks_stream h hregistered, ok_bind, ofBlocks_eq_ok_iff]
  exact ⟨assemblable h, (tree_blocks h.distinctSteps).symm⟩

/-- Animals with an optional owner, the ancestors of each up to three steps back with the sites of
their keepers, and all offspring that are lighter than the animal itself. -/
def kinship : Pattern where
  startClass := "Animal"
  vertex := ⟨"Animal", [⟨"name", .inCollection, ["$names"], none⟩], [⟨"name", "animal"⟩]⟩
  branches :=
    .branch ⟨⟨"owns", .inward⟩, .optional⟩ ⟨"Person", [], [⟨"name", "owner"⟩, ⟨"age", "age"⟩]⟩
      .none <|
    .branch ⟨⟨"child", .inward⟩, .recurse 3⟩ ⟨"Animal", [], [⟨"name", "ancestor"⟩]⟩
      (.branch ⟨⟨"keeps", .inward⟩, .mandatory⟩ ⟨"Site", [], [⟨"city", "city"⟩]⟩ .none .none) <|
    .branch ⟨⟨"child", .outward⟩, .fold⟩
      ⟨"Animal", [⟨"weight", .less, [], some ⟨.root "Animal", "weight"⟩⟩], [⟨"name", "young"⟩]⟩
      .none .none

theorem tree_stream_kinship :
    kinship.WellFormed ∧ kinship.RegisteredIn kinship.types ∧
      (Query.mk kinship.stream kinship.types).tree = .ok kinship.tree := by
  have h : kinship.WellFormed := by decide
  have hregistered : kinship.RegisteredIn kinship.types := registeredIn_types h.distinctSteps
  exact ⟨h, hregistered, tree_stream h hregistered⟩

end Pattern

end TraversalSql
