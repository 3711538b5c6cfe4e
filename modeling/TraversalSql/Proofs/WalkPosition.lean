import TraversalSql.Proofs.ScopeFlags

/-!
Where the walk is when a filter or an output is read.  Both belong to the location that is marked
next, and nothing compares this location with the one at which the walk is.  A mark is only read
where the walk is, so the two differ exactly if the walk goes back before the mark, and then the
location is as many steps back as vertices are left until then.
-/

namespace TraversalSql

open Outcome

namespace Instruction

/-- Whether an instruction says something about a vertex that has been entered. -/
def attaches : Instruction → Bool
  | .filter _ _ _ _ | .output _ _ => true
  | _ => false

/-- Whether an instruction leaves the vertex at which the walk is. -/
def leaves : Instruction → Bool
  | .unfold | .backtrack _ _ => true
  | _ => false

theorem of_attaches {instruction : Instruction} (h : instruction.attaches) :
    instruction.isResult = false ∧ instruction.marked? = none := by
  cases instruction with
  | filter | output => exact ⟨rfl, rfl⟩
  | _ => exact absurd h (by simp [attaches])

end Instruction

namespace Query

/-- How many vertices instructions leave before they mark a location. -/
def leavings : List Instruction → Nat
  | [] => 0
  | instruction :: rest =>
      if instruction.marked?.isSome then 0
      else (if instruction.leaves then 1 else 0) + leavings rest

/-- Read the first instructions of a stream that goes on with others: their blocks, and the walk
after them. -/
def readUpTo (types : TypeTable) (index : Nat) (walk : Walk) (others : List Instruction) :
    List Instruction → Except QueryError (List Block × Walk)
  | [] => .ok ([], walk)
  | instruction :: rest => do
      let marked := nextMarked? (instruction :: rest ++ others)
      let (blocks, walk) ← readInstruction types index marked walk instruction
      let (later, walk) ← readUpTo types (index + 1) walk others rest
      return (blocks ++ later, walk)

theorem readFrom_cons_eq_bind {types : TypeTable} {index : Nat} {walk : Walk}
    {instruction : Instruction}
    {rest : List Instruction} (h : rest ≠ [] ∨ instruction.isResult = false) :
    readFrom types index walk (instruction :: rest) = do
      let marked := nextMarked? (instruction :: rest)
      let (blocks, walk) ← readInstruction types index marked walk instruction
      let (read, walk) ← readFrom types (index + 1) walk rest
      return ({ read with blocks := blocks ++ read.blocks }, walk) := by
  rw [readFrom]
  rintro fields rfl rfl
  exact h.elim (absurd rfl) (by simp [Instruction.isResult])

/-- A stream is read by reading its first instructions and then the others. -/
theorem readFrom_append {types : TypeTable} {index : Nat} {walk : Walk}
    {first others : List Instruction} (hothers : others ≠ []) :
    readFrom types index walk (first ++ others) = do
      let (blocks, walk) ← readUpTo types index walk others first
      let (read, walk) ← readFrom types (index + first.length) walk others
      return ({ read with blocks := blocks ++ read.blocks }, walk) := by
  induction first generalizing index walk with
  | nil =>
      simp only [List.nil_append, readUpTo, List.length_nil, Nat.add_zero, ok_bind]
      exact (bind_pure _).symm
  | cons instruction rest ih =>
      have hmore : rest ++ others ≠ [] := List.append_ne_nil_of_right_ne_nil rest hothers
      have hindex : index + (rest.length + 1) = index + 1 + rest.length := by omega
      rw [List.cons_append, readFrom_cons_eq_bind (.inl hmore), readUpTo, List.length_cons, hindex]
      simp only [ih, bind_assoc, pure_bind, List.append_assoc, List.cons_append]

end Query

namespace Walk

/-- A walk that has entered the locations of its path, and none of them twice. -/
structure Simple (walk : Walk) : Prop where
  distinct : walk.path.Nodup
  entered : ∀ location ∈ walk.path, walk.hasEntered location

theorem simple_start : start.Simple where
  distinct := .nil
  entered := by simp [start]

namespace Simple

variable {walk after : Walk}

theorem of_suffix (h : walk.Simple) (hsites : after.sites = walk.sites)
    (hpath : after.path <:+ walk.path) : after.Simple where
  distinct := hpath.sublist.nodup h.distinct
  entered location hlocation := by
    rw [hasEntered, hsites]
    exact h.entered location (hpath.subset hlocation)

theorem enter {types : TypeTable} {location : Location} {site : Site} (h : walk.Simple)
    (henter : walk.enter types location = .ok (site, after)) : after.Simple := by
  obtain ⟨hnew, typeName, outer, -, -, -, rfl⟩ := enter_eq_ok_iff.1 henter
  refine ⟨List.nodup_cons.2 ⟨fun hold => ?_, h.distinct⟩, fun other hother => ?_⟩
  · have := h.entered location hold
    rw [hasEntered, hnew] at this
    exact Bool.false_ne_true this
  · by_cases hsame : other = location
    · simp [hasEntered, OrderedMap.contains, hsame]
    · have hold : other ∈ walk.path := List.mem_of_ne_of_mem hsame hother
      have := h.entered other hold
      simpa [hasEntered, OrderedMap.contains, OrderedMap.find?_insert_of_ne _ hsame] using this

end Simple

end Walk

namespace Query

section Steps

variable {types : TypeTable} {index : Nat} {marked : Option Location} {walk after : Walk}
  {instruction : Instruction}

theorem sites_of_opening {scope : Option ScopeKind} (h : walk.opening scope = .ok after) :
    after.sites = walk.sites ∧ after.path = walk.path := by
  cases scope with
  | none =>
      obtain rfl := Except.ok.inj h
      exact ⟨rfl, rfl⟩
  | some kind =>
      obtain ⟨-, openedAt, -, rfl⟩ := Walk.openScope_eq_ok_iff.1 h
      exact ⟨rfl, rfl⟩

/-- An instruction that leaves a vertex goes one location back, and forgets nothing. -/
theorem Effect.path_of_leaves {relations : List Relation}
    (h : Effect types marked walk instruction relations after) (hleaves : instruction.leaves) :
    ∃ location, walk.path = location :: after.path ∧ after.sites = walk.sites := by
  cases h with
  | unfold hleave hclose =>
      obtain ⟨rest, hpath, rfl⟩ := Walk.leave_eq_ok_iff.1 hleave
      obtain ⟨_, _, -, -, rfl⟩ := Walk.closeScope_eq_ok_iff.1 hclose
      exact ⟨_, hpath, rfl⟩
  | backtrack hback =>
      obtain ⟨gone, rest, _, _, hpath, -, -, rfl⟩ := Walk.backtrack_eq_ok_iff.1 hback
      exact ⟨_, hpath, rfl⟩
  | cross hcrossing =>
      cases instruction with
      | unfold | backtrack => exact absurd hcrossing (by simp [Instruction.crossing?])
      | _ => exact absurd hleaves (by simp [Instruction.leaves])
  | start | mark | filter | output => exact absurd hleaves (by simp [Instruction.leaves])

theorem Effect.simple {relations : List Relation}
    (h : Effect types marked walk instruction relations after) (hwalk : walk.Simple) :
    after.Simple := by
  by_cases hleaves : instruction.leaves
  · obtain ⟨location, hpath, hsites⟩ := h.path_of_leaves hleaves
    exact hwalk.of_suffix hsites (hpath ▸ List.suffix_cons _ _)
  · cases h with
    | start _ _ henter => exact hwalk.enter henter
    | cross _ _ _ _ _ hopened henter =>
        obtain ⟨hsites, hpath⟩ := sites_of_opening hopened
        exact (hwalk.of_suffix hsites (hpath ▸ List.suffix_rfl)).enter henter
    | unfold | backtrack => exact absurd rfl hleaves
    | mark | filter | output => exact hwalk

/-- What an instruction enters is the location marked next, and has not been entered before. -/
theorem Effect.not_entered {relations : List Relation}
    (h : Effect types marked walk instruction relations after) {location : Location}
    (hentered : walk.hasEntered location) (hmarked : marked = some location) :
    relations = [] := by
  have hnew : ∀ {opened : Walk} {other : Location} {site : Site}, opened.sites = walk.sites →
      opened.enter types other = .ok (site, after) → some location ≠ some other := by
    rintro opened other site hsites henter ⟨⟩
    have hold := (Walk.enter_eq_ok_iff.1 henter).1
    rw [hsites] at hold
    exact Bool.false_ne_true (hold.symm.trans hentered)
  cases h with
  | start hmarked' _ henter => exact absurd (hmarked.symm.trans hmarked') (hnew rfl henter)
  | cross _ hmarked' _ _ _ hopened henter =>
      exact absurd (hmarked.symm.trans hmarked') (hnew (sites_of_opening hopened).1 henter)
  | unfold | backtrack | mark | filter | output => rfl

theorem current_of_mark {location : Location} {blocks : List Block}
    (h : readInstruction types index marked walk (.mark location) = .ok (blocks, after)) :
    walk.current = .ok location := by
  simp only [readInstruction, bind_eq_ok_iff, throw_bind] at h
  obtain ⟨current, hcurrent, h⟩ := h
  split at h
  · simp [throw_eq_ok_iff] at h
  · next hsame => rwa [← not_ne_iff.1 hsame]

/-- A filter or an output gives one block, at the location marked next, which has been entered. -/
theorem exists_block_of_attaches {blocks : List Block} (hrecorded : walk.Recorded types)
    (hattaches : instruction.attaches)
    (h : readInstruction types index marked walk instruction = .ok (blocks, after)) :
    after = walk ∧ ∃ block, blocks = [block] ∧ marked = some block.location ∧
      walk.hasEntered block.location := by
  have hentered : ∀ location, marked = some location → walk.hasEntered location := by
    rintro location rfl
    cases instruction with
    | filter | output =>
        simp only [readInstruction, bind_eq_ok_iff, needLocation_eq_ok_iff,
          Option.some.injEq] at h
        obtain ⟨_, rfl, site, hsite, -⟩ := h
        exact hasEntered_of_siteOf hsite
    | _ => exact absurd hattaches (by simp [Instruction.attaches])
  have hstays : after = walk := by
    have heffect := effect_of_readInstruction h
    generalize blocks.filterMap Block.relation? = relations at heffect
    cases heffect with
    | filter | output => rfl
    | cross hcrossing =>
        cases instruction with
        | filter | output => exact absurd hcrossing (by simp [Instruction.crossing?])
        | _ => exact absurd hattaches (by simp [Instruction.attaches])
    | _ => exact absurd hattaches (by simp [Instruction.attaches])
  refine ⟨hstays, ?_⟩
  cases (readAs_of_readInstruction hrecorded h).1 with
  | filter hlocation | output hlocation =>
      exact ⟨_, rfl, hlocation, hentered _ hlocation⟩
  | _ => exact absurd hattaches (by simp [Instruction.attaches])

end Steps

variable {types : TypeTable} {index : Nat} {walk after : Walk}

/-- What each instruction keeps is kept by the first instructions of a stream. -/
theorem invariant_of_readUpTo {P : Walk → Prop}
    (hstep : ∀ {index : Nat} {marked : Option Location} {walk after : Walk}
      {instruction : Instruction} {blocks : List Block}, P walk →
      readInstruction types index marked walk instruction = .ok (blocks, after) → P after)
    {first others : List Instruction} {blocks : List Block} (hstart : P walk)
    (h : readUpTo types index walk others first = .ok (blocks, after)) : P after := by
  induction first generalizing index walk blocks with
  | nil =>
      obtain ⟨-, rfl⟩ := Prod.mk.inj (Except.ok.inj h)
      exact hstart
  | cons instruction rest ih =>
      obtain ⟨⟨given, between⟩, hfirst, h⟩ := bind_eq_ok_iff.1 h
      obtain ⟨⟨later, last⟩, hrest, h⟩ := bind_eq_ok_iff.1 h
      obtain ⟨-, rfl⟩ := Prod.mk.inj (pure_eq_ok_iff.1 h)
      exact ih (hstep hstart hfirst) hrest

/-- If the location that is marked next has been entered, it lies on the path, as many steps back as
vertices are left before it is marked. -/
theorem path_leavings_of_readFrom {instructions : List Instruction} {read : Blocks}
    {location : Location} (h : readFrom types index walk instructions = .ok (read, after))
    (hentered : walk.hasEntered location) (hmarked : nextMarked? instructions = some location) :
    walk.path[leavings instructions]? = some location := by
  refine readFrom_induction (motive := fun walk instructions _ _ => walk.hasEntered location →
    nextMarked? instructions = some location →
    walk.path[leavings instructions]? = some location) ?nil ?result ?cons h hentered hmarked
  case nil =>
    intro walk _ hmarked
    exact absurd hmarked (by simp [nextMarked?])
  case result =>
    intro walk fields _ hmarked
    exact absurd hmarked (by simp [nextMarked?, Instruction.marked?])
  case cons =>
    intro index walk between after instruction rest blocks read hfirst ih hentered hmarked
    have heffect := effect_of_readInstruction hfirst
    -- Nothing is entered before the mark, since it would be what is marked.
    have hnone := heffect.not_entered hentered hmarked
    have hleft := heffect.path_of_leaves
    rw [hnone] at heffect
    cases heffect with
    | mark =>
        obtain rfl : _ = location := Option.some.inj hmarked
        obtain ⟨back, hpath⟩ := Walk.current_eq_ok_iff.1 (current_of_mark hfirst)
        simp [leavings, Instruction.marked?, hpath]
    | unfold | backtrack =>
        obtain ⟨gone, hpath, hsites⟩ := hleft rfl
        have hback := ih (by rwa [Walk.hasEntered, hsites]) hmarked
        simp [leavings, Instruction.marked?, Instruction.leaves, hpath, Nat.add_comm 1, hback]
    | filter | output =>
        simpa [leavings, Instruction.marked?, Instruction.leaves] using ih hentered hmarked

/-- An instruction of a query that is read: what is read before it, at it and after it. -/
theorem exists_read_at {query : Query} {read : Blocks} (h : query.blocks = .ok read)
    {before rest : List Instruction} {instruction : Instruction}
    (hstream : query.instructions = before ++ instruction :: rest)
    (hresult : instruction.isResult = false) :
    ∃ earlier walk blocks between later last,
      readUpTo query.types 0 Walk.start (instruction :: rest) before = .ok (earlier, walk) ∧
      readInstruction query.types before.length (nextMarked? (instruction :: rest)) walk
        instruction = .ok (blocks, between) ∧
      readFrom query.types (before.length + 1) between rest = .ok (later, last) ∧
      read.blocks = earlier ++ (blocks ++ later.blocks) := by
  obtain ⟨-, last, hread⟩ := exists_readFrom_of_blocks h
  rw [hstream, readFrom_append (List.cons_ne_nil _ _)] at hread
  obtain ⟨⟨earlier, walk⟩, hbefore, hread⟩ := bind_eq_ok_iff.1 hread
  obtain ⟨⟨found, after⟩, hfound, hread⟩ := bind_eq_ok_iff.1 hread
  obtain ⟨rfl, rfl⟩ := Prod.mk.inj (pure_eq_ok_iff.1 hread)
  rw [Nat.zero_add, readFrom_cons_eq_bind (.inr hresult)] at hfound
  obtain ⟨⟨blocks, between⟩, hhere, hfound⟩ := bind_eq_ok_iff.1 hfound
  obtain ⟨⟨later, last⟩, hrest, hfound⟩ := bind_eq_ok_iff.1 hfound
  obtain ⟨rfl, rfl⟩ := Prod.mk.inj (pure_eq_ok_iff.1 hfound)
  exact ⟨earlier, walk, blocks, between, later, last, hbefore, hhere, hrest, rfl⟩

/-- Where the walk is when a filter or an output of a query is read, and where its block goes.  The
block belongs to the location marked next, which lies on the path of the walk, as many steps back as
vertices are left before it is marked.  So the block goes where the walk is exactly if none is. -/
theorem attached_at_current_iff {query : Query} {read : Blocks} (h : query.blocks = .ok read)
    {before rest : List Instruction} {instruction : Instruction}
    (hstream : query.instructions = before ++ instruction :: rest)
    (hattaches : instruction.attaches) :
    ∃ earlier walk here block later,
      readUpTo query.types 0 Walk.start (instruction :: rest) before = .ok (earlier, walk) ∧
      readInstruction query.types before.length (nextMarked? rest) walk instruction =
        .ok ([block], walk) ∧
      read.blocks = earlier ++ block :: later ∧
      walk.current = .ok here ∧
      walk.path[leavings rest]? = some block.location ∧
      (block.location = here ↔ leavings rest = 0) := by
  obtain ⟨hresult, hmark⟩ := Instruction.of_attaches hattaches
  obtain ⟨earlier, walk, blocks, between, later, last, hbefore, hhere, hrest, hblocks⟩ :=
    exists_read_at h hstream hresult
  rw [nextMarked?_cons hmark] at hhere
  -- What the walk recorded belongs to its locations, and it is simple.
  obtain ⟨hrecorded, hsimple⟩ : walk.Recorded query.types ∧ walk.Simple :=
    invariant_of_readUpTo (P := fun walk => walk.Recorded query.types ∧ walk.Simple)
      (fun ⟨hrecorded, hsimple⟩ hstep =>
        ⟨(readAs_of_readInstruction hrecorded hstep).2.recorded hrecorded,
          (effect_of_readInstruction hstep).simple hsimple⟩)
      ⟨Walk.recorded_start _, Walk.simple_start⟩ hbefore
  obtain ⟨rfl, block, rfl, hnext, hentered⟩ :=
    exists_block_of_attaches hrecorded hattaches hhere
  have hback := path_leavings_of_readFrom hrest hentered hnext
  obtain ⟨here, path, hpath⟩ : ∃ here path, between.path = here :: path := by
    refine List.exists_cons_of_ne_nil fun hnil => ?_
    simp [hnil] at hback
  refine ⟨earlier, between, here, block, later.blocks, hbefore, hhere, hblocks,
    Walk.current_eq_ok_iff.2 ⟨path, hpath⟩, hback, ?_⟩
  have hhead : between.path[0]? = some here := by rw [hpath]; rfl
  have hlength : 0 < between.path.length := by simp [hpath]
  rw [eq_comm, @eq_comm Nat, ← List.getElem?_inj hlength hsimple.distinct, hhead, hback,
    Option.some.injEq]

/-- Animals with their young and the sites that keep those.  When the walk is back at the young, a
filter is read, and the walk goes back to the animals before it marks a location. -/
def turnedBack : Query where
  instructions := [
    .start "Animal", .output "name" "animal", .mark ⟨["Animal"]⟩,
    .traverse ⟨"child", .outward⟩ false, .output "name" "young", .mark ⟨["Animal", "out_child"]⟩,
    .traverse ⟨"keeps", .inward⟩ false, .mark ⟨["Animal", "out_child", "in_keeps"]⟩,
    .backtrack ⟨["Animal", "out_child"]⟩ false, .mark ⟨["Animal", "out_child"]⟩,
    .filter "name" "=" ["wanted"] none,
    .backtrack ⟨["Animal"]⟩ false, .mark ⟨["Animal"]⟩,
    .result [("animal", ⟨⟨["Animal"]⟩, "name"⟩), ("young", ⟨⟨["Animal", "out_child"]⟩, "name"⟩)]]
  types := .ofList [
    (⟨["Animal"]⟩, ⟨"Animal", none⟩),
    (⟨["Animal", "out_child"]⟩, ⟨"Animal", none⟩),
    (⟨["Animal", "out_child", "in_keeps"]⟩, ⟨"Site", none⟩)]

/-- The name of the young is given out where the walk is. -/
theorem attached_at_current_young :
    turnedBack.blocks.isOk ∧ ∃ earlier walk here block,
      readUpTo turnedBack.types 0 Walk.start (turnedBack.instructions.drop 4)
        (turnedBack.instructions.take 4) = .ok (earlier, walk) ∧
      readInstruction turnedBack.types 4 (some ⟨["Animal", "out_child"]⟩) walk
        (.output "name" "young") = .ok ([block], walk) ∧
      walk.current = .ok here ∧ block.location = here := by
  have hok : turnedBack.blocks.isOk := by cbv
  obtain ⟨read, hread⟩ := exists_of_isOk hok
  have hstream : turnedBack.instructions = turnedBack.instructions.take 4 ++
      .output "name" "young" :: turnedBack.instructions.drop 5 := rfl
  obtain ⟨earlier, walk, here, block, later, hbefore, hhere, -, hcurrent, -, hiff⟩ :=
    attached_at_current_iff hread hstream rfl
  exact ⟨hok, earlier, walk, here, block, hbefore, hhere, hcurrent, hiff.2 rfl⟩

/-- The filter that is read at the young is put on the animals. -/
theorem attached_behind_current :
    turnedBack.blocks.isOk ∧ ∃ earlier walk block,
      readUpTo turnedBack.types 0 Walk.start (turnedBack.instructions.drop 10)
        (turnedBack.instructions.take 10) = .ok (earlier, walk) ∧
      readInstruction turnedBack.types 10 (some ⟨["Animal"]⟩) walk
        (.filter "name" "=" ["wanted"] none) = .ok ([block], walk) ∧
      walk.current = .ok ⟨["Animal", "out_child"]⟩ ∧ block.location = ⟨["Animal"]⟩ := by
  have hok : turnedBack.blocks.isOk := by cbv
  have hread : (do
      let (_, walk) ← readUpTo turnedBack.types 0 Walk.start (turnedBack.instructions.drop 10)
        (turnedBack.instructions.take 10)
      let (blocks, after) ← readInstruction turnedBack.types 10 (some ⟨["Animal"]⟩) walk
        (.filter "name" "=" ["wanted"] none)
      return (walk.path.head?, blocks.map Block.location, decide (after = walk))) =
      .ok (some ⟨["Animal", "out_child"]⟩, [⟨["Animal"]⟩], true) := by
    cbv
  obtain ⟨⟨earlier, walk⟩, hbefore, hread⟩ := bind_eq_ok_iff.1 hread
  obtain ⟨⟨blocks, after⟩, hhere, hread⟩ := bind_eq_ok_iff.1 hread
  simp only [pure_eq_ok_iff, Prod.mk.injEq, List.map_eq_singleton_iff, decide_eq_true_eq] at hread
  obtain ⟨hhead, ⟨block, rfl, hlocation⟩, rfl⟩ := hread
  have hcurrent := Walk.current_eq_ok_iff.2 (List.head?_eq_some_iff.1 hhead)
  exact ⟨hok, earlier, after, block, hbefore, hhere, hcurrent, hlocation⟩

end Query

end TraversalSql
