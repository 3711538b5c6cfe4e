import TraversalSql.Proofs.ScopeFlags

/-!
The fold flag of a tree.  A fold is closed by the instruction that leaves it, even if the walk is
further down than the vertex of the fold then, and what is entered afterwards is no longer flagged.
So a vertex is flagged exactly if a fold on the way to it was still open when it was entered.  Where
each fold is left at its own vertex, this is the same as a fold on the way to it.
-/

namespace TraversalSql

open Outcome

namespace Instruction

/-- Whether an instruction enters a vertex. -/
def enters (instruction : Instruction) : Bool :=
  instruction.isStart || instruction.crossing?.isSome

/-- How many steps below the vertex of the open fold the walk is after an instruction. -/
def stepsInFold (steps : Option Nat) : Instruction → Option Nat
  | .start _ | .traverse _ _ | .recurse _ _ => steps.map (· + 1)
  | .fold _ => some 0
  | .unfold => none
  | .backtrack _ _ => steps.map (· - 1)
  | _ => steps

theorem enters_of_crossing? {instruction : Instruction} {crossing : Crossing}
    (h : instruction.crossing? = some crossing) : instruction.enters := by
  simp [enters, h]

theorem ne_unfold_of_enters {instruction : Instruction} (h : instruction.enters) :
    instruction ≠ .unfold := by
  rintro rfl
  exact absurd h (by simp [enters, isStart, crossing?])

theorem stepsInFold_of_crossing? {instruction : Instruction} {crossing : Crossing}
    (h : instruction.crossing? = some crossing) (steps : Option Nat) :
    instruction.stepsInFold steps =
      if crossing.kind.scope? = some .fold then some 0 else steps.map (· + 1) := by
  cases instruction with
  | traverse traversal optional =>
      obtain rfl := Option.some.inj h
      cases optional <;> rfl
  | recurse traversal depth =>
      obtain rfl := Option.some.inj h
      rfl
  | fold traversal =>
      obtain rfl := Option.some.inj h
      rfl
  | _ => exact absurd h (by simp [crossing?])

end Instruction

namespace Query

def entered : List Instruction → List (Option Location)
  | [] => []
  | instruction :: rest =>
      if instruction.enters then nextMarked? (instruction :: rest) :: entered rest
      else entered rest

/-- How many folds instructions leave before they enter a location. -/
def unfoldsUntil (location : Location) : List Instruction → Nat
  | [] => 0
  | instruction :: rest =>
      if instruction.enters ∧ nextMarked? (instruction :: rest) = some location then 0
      else (if instruction = .unfold then 1 else 0) + unfoldsUntil location rest

/-- How many folds a query leaves before it enters a location. -/
def unfoldsBefore (query : Query) (location : Location) : Nat :=
  unfoldsUntil location query.instructions

/-- Whether instructions leave each fold at its own vertex, if the walk is so many steps below the
vertex of the open fold. -/
def leavesFoldsFrom (steps : Option Nat) : List Instruction → Bool
  | [] => true
  | instruction :: rest =>
      (instruction != .unfold || steps == some 0) &&
        leavesFoldsFrom (instruction.stepsInFold steps) rest

/-- Whether a query leaves each fold at its own vertex. -/
def leavesFolds (query : Query) : Bool := leavesFoldsFrom none query.instructions

/-- Each location is entered when as many folds have been left as a clock says. -/
def Clocked (clock : Location → Nat) (left : Nat) : List Instruction → Prop
  | [] => True
  | instruction :: rest =>
      (∀ location, instruction.enters → nextMarked? (instruction :: rest) = some location →
        clock location = left) ∧
      Clocked clock (if instruction = .unfold then left + 1 else left) rest

/-- The folds left before a location is entered are a clock, if no location is entered twice. -/
theorem clocked_of_unfoldsUntil {clock : Location → Nat} {left : Nat}
    {instructions : List Instruction} (hdistinct : (entered instructions).Nodup)
    (hclock : ∀ location, some location ∈ entered instructions →
      clock location = left + unfoldsUntil location instructions) :
    Clocked clock left instructions := by
  induction instructions generalizing left with
  | nil => exact trivial
  | cons instruction rest ih =>
      by_cases henters : instruction.enters
      · simp only [entered, henters, if_true, List.nodup_cons] at hdistinct
        simp only [entered, henters, if_true, List.mem_cons] at hclock
        refine ⟨fun location _ hmarked => ?_, ?_⟩
        · rw [hclock location (.inl hmarked.symm)]
          simp [unfoldsUntil, henters, hmarked]
        · rw [if_neg (Instruction.ne_unfold_of_enters henters)]
          refine ih hdistinct.2 fun location hlocation => ?_
          have hother : nextMarked? (instruction :: rest) ≠ some location := by
            intro hmarked
            exact hdistinct.1 (hmarked ▸ hlocation)
          rw [hclock location (.inr hlocation), unfoldsUntil, if_neg fun h => hother h.2,
            if_neg (Instruction.ne_unfold_of_enters henters), Nat.zero_add]
      · simp only [entered, henters, Bool.false_eq_true, if_false] at hdistinct hclock
        refine ⟨fun location h => absurd h henters, ih hdistinct fun location hlocation => ?_⟩
        rw [hclock location hlocation, unfoldsUntil, if_neg fun h => henters h.1]
        split <;> omega

/-- The locations at which vertices are entered are those of the vertices that are read. -/
theorem entered_of_reading {types : TypeTable} {instructions : List Instruction} {read : Blocks}
    (h : Reading types instructions read) :
    entered instructions = (read.relations.map Relation.location).map some := by
  induction h with
  | nil => rfl
  | result => rfl
  | cons hfirst _ ih =>
      simp only [Blocks.relations, List.filterMap_append, List.map_append] at ih ⊢
      rw [entered, ih]
      cases hfirst with
      | start hentered | traverse hentered | recurse hentered | fold hentered =>
          simp [Instruction.enters, Instruction.isStart, Instruction.crossing?, Block.relation?,
            List.filterMap_cons, hentered.location, Relation.location]
      | _ => simp [Instruction.enters, Instruction.isStart, Instruction.crossing?, Block.relation?]

theorem clocked_unfoldsBefore {query : Query} {read : Blocks} (hread : query.blocks = .ok read)
    (hplanted : Planted read.relations) :
    Clocked query.unfoldsBefore 0 query.instructions := by
  apply clocked_of_unfoldsUntil
  · rw [entered_of_reading (reading_of_blocks hread)]
    exact hplanted.distinct.map (Option.some_injective _)
  · intro location _
    rw [Nat.zero_add, unfoldsBefore]

end Query

/-- What the flag of a vertex on the path says: it was entered since a fold was left last and is
flagged exactly if a fold is open that was opened before.  In a tidy stream all that is flagged was
entered since then. -/
structure Relation.FoldedAt (relation : Relation) (clock : Location → Nat) (left : Nat)
    (tidy : Prop) (isOpen : Bool) : Prop where
  early : clock relation.location ≤ left
  open_iff : relation.site.inFold ∧ clock relation.location = left ↔ isOpen
  kept : tidy → relation.site.inFold → clock relation.location = left

/-- A vertex that is reached from another one is flagged if it is a fold, or if the other one is
flagged and no fold was left between the two, but not both. -/
structure Relation.FoldsOnto (clock : Location → Nat) (tidy : Prop) (above below : Relation) :
    Prop where
  parent : below.location.parent? = some above.location
  early : clock above.location ≤ clock below.location
  inside : below.site.inFold ↔
    above.site.inFold ∧ clock above.location = clock below.location ∨ below.kind.isFold
  outside : below.kind.isFold →
    ¬ (above.site.inFold ∧ clock above.location = clock below.location)
  kept : tidy → above.site.inFold → clock above.location = clock below.location

namespace Walk

variable {clock : Location → Nat} {left : Nat} {tidy : Prop} {read : List Relation}

/-- Each location of a path belongs to a vertex that was read and has the flag of a fold. -/
def FoldedAlong (clock : Location → Nat) (left : Nat) (tidy : Prop) (read : List Relation)
    (scopes : List OpenScope) : List Location → Prop
  | [] => True
  | location :: rest =>
      (∃ relation ∈ read, relation.location = location ∧
        relation.FoldedAt clock left tidy (isOpenAt scopes .fold rest.length)) ∧
      FoldedAlong clock left tidy read scopes rest

/-- The vertices of a path stay as they are while no fold is left. -/
theorem FoldedAlong.congr {more : List Relation} {scopes others : List OpenScope}
    {path : List Location} (h : FoldedAlong clock left tidy read scopes path) (hmore : read ⊆ more)
    (hsame : ∀ height < path.length,
      isOpenAt others .fold height = isOpenAt scopes .fold height) :
    FoldedAlong clock left tidy more others path := by
  induction path with
  | nil => exact trivial
  | cons location rest ih =>
      obtain ⟨⟨relation, hrelation, hlocation, hfolded⟩, hrest⟩ := h
      rw [List.length_cons] at hsame
      refine ⟨⟨relation, hmore hrelation, hlocation, ?_⟩, ?_⟩
      · rwa [hsame _ (Nat.lt_succ_self _)]
      · exact ih hrest fun height hheight => hsame height (Nat.lt_succ_of_lt hheight)

/-- When a fold is left, nothing on the path has been entered since, and in a tidy stream nothing on
the path is flagged. -/
theorem FoldedAlong.leaveFold {scopes others : List OpenScope} {path : List Location}
    (h : FoldedAlong clock left tidy read scopes path)
    (hnone : ∀ height, isOpenAt others .fold height = false)
    (htidy : tidy → ∀ height < path.length, isOpenAt scopes .fold height = false) :
    FoldedAlong clock (left + 1) tidy read others path := by
  induction path with
  | nil => exact trivial
  | cons location rest ih =>
      obtain ⟨⟨relation, hrelation, hlocation, hfolded⟩, hrest⟩ := h
      have hearly := hfolded.early
      rw [List.length_cons] at htidy
      refine ⟨⟨relation, hrelation, hlocation, Nat.le_succ_of_le hearly, ?_, ?_⟩, ?_⟩
      · rw [hnone]
        refine ⟨fun h => ?_, fun h => absurd h Bool.false_ne_true⟩
        omega
      · intro hyes hinside
        have hopen := hfolded.open_iff.1 ⟨hinside, hfolded.kept hyes hinside⟩
        rw [htidy hyes _ (Nat.lt_succ_self _)] at hopen
        exact absurd hopen Bool.false_ne_true
      · exact ih hrest fun hyes height hheight => htidy hyes height (Nat.lt_succ_of_lt hheight)

/-- A walk whose path tells which vertices lie in the open fold, and that is so many steps below the
vertex of this fold. -/
structure Folding (walk : Walk) (clock : Location → Nat) (left : Nat) (tidy : Prop)
    (steps : Option Nat) (read : List Relation) : Prop where
  single : walk.scopes.Pairwise fun inner outer => inner.kind ≠ outer.kind
  below : ∀ scope ∈ walk.scopes, scope.kind = .fold →
    ∃ taken, steps = some taken ∧ walk.path.length = scope.height + 1 + taken
  along : FoldedAlong clock left tidy read walk.scopes walk.path

theorem folding_start : start.Folding clock left tidy none read where
  single := .nil
  below := by simp [start]
  along := trivial

theorem isOpenAt_eq_false {scopes : List OpenScope} {kind : ScopeKind} {height : Nat}
    (h : ∀ scope ∈ scopes, scope.kind ≠ kind ∨ height < scope.height) :
    isOpenAt scopes kind height = false := by
  rw [← List.append_nil scopes, isOpenAt_append_of_forall h]
  rfl

theorem Nested.opening {walk opened : Walk} {scope : Option ScopeKind}
    (h : walk.Nested read walk.path.length) (hopen : walk.opening scope = .ok opened) :
    opened.Nested read (opened.path.length + 1) := by
  cases scope with
  | none =>
      obtain rfl := Except.ok.inj hopen
      exact h.weaken (Nat.le_succ _)
  | some kind => exact h.openScope hopen

namespace Folding

variable {walk opened after : Walk} {types : TypeTable} {steps : Option Nat}

/-- A scope is opened beside scopes of other kinds. -/
theorem opening {scope : Option ScopeKind} (h : walk.Folding clock left tidy steps read)
    (hopen : walk.opening scope = .ok opened) :
    (opened.scopes.Pairwise fun inner outer => inner.kind ≠ outer.kind) ∧
      (∀ found ∈ opened.scopes, found.kind = .fold → ∃ taken,
        (if scope = some .fold then some 0 else steps.map (· + 1)) = some taken ∧
          opened.path.length + 1 = found.height + 1 + taken) ∧
      FoldedAlong clock left tidy read opened.scopes opened.path := by
  have hbelow : ∀ found ∈ walk.scopes, found.kind = .fold → ∃ taken,
      steps.map (· + 1) = some taken ∧ walk.path.length + 1 = found.height + 1 + taken := by
    intro found hfound hkind
    obtain ⟨taken, rfl, hlength⟩ := h.below found hfound hkind
    exact ⟨taken + 1, rfl, by omega⟩
  cases scope with
  | none =>
      obtain rfl := Except.ok.inj hopen
      exact ⟨h.single, hbelow, h.along⟩
  | some kind =>
      obtain ⟨hclosed, openedAt, -, rfl⟩ := openScope_eq_ok_iff.1 hopen
      have hothers : ∀ found ∈ walk.scopes, kind ≠ found.kind := by
        intro found hfound hsame
        refine absurd hclosed ?_
        simpa [isInside] using ⟨found, hfound, hsame.symm⟩
      refine ⟨List.pairwise_cons.2 ⟨hothers, h.single⟩, ?_, ?_⟩
      · intro found hfound hfold
        by_cases hkind : kind = .fold
        · rcases List.mem_cons.1 hfound with rfl | hfound
          · exact ⟨0, by simp [hkind], rfl⟩
          · exact absurd (hkind.trans hfold.symm) (hothers found hfound)
        · rcases List.mem_cons.1 hfound with rfl | hfound
          · exact absurd hfold hkind
          · rw [if_neg (by simpa using hkind)]
            exact hbelow found hfound hfold
      · refine h.along.congr (List.Subset.refl _) fun height hheight => ?_
        simp [isOpenAt_cons, Nat.not_le.2 hheight]

/-- The vertex entered is flagged by the fold that is open. -/
theorem enter {relation : Relation}
    (hsingle : opened.scopes.Pairwise fun inner outer => inner.kind ≠ outer.kind)
    (hbelow : ∀ found ∈ opened.scopes, found.kind = .fold →
      ∃ taken, steps = some taken ∧ opened.path.length + 1 = found.height + 1 + taken)
    (halong : FoldedAlong clock left tidy read opened.scopes opened.path)
    (hlower : ∀ scope ∈ opened.scopes, scope.height ≤ opened.path.length)
    (hclock : clock relation.location = left)
    (henter : opened.enter types relation.location = .ok (relation.site, after)) :
    after.Folding clock left tidy steps (read ++ [relation]) := by
  have hflag : relation.site.inFold = opened.isInside .fold := isInside_of_enter henter .fold
  obtain ⟨-, _, _, -, -, -, rfl⟩ := enter_eq_ok_iff.1 henter
  refine ⟨hsingle, hbelow, ⟨relation, by simp, rfl, hclock.le, ?_, fun _ _ => hclock⟩,
    halong.congr (List.subset_append_left _ _) fun _ _ => rfl⟩
  rw [isOpenAt_eq_isInside hlower, ← hflag]
  exact and_iff_left hclock

/-- Leaving a fold closes the only one that is open. -/
theorem leaveFold {location : Location} {gone : Walk}
    (h : walk.Folding clock left tidy steps read) (hleave : walk.leave = .ok (location, gone))
    (hclose : gone.closeScope .fold = .ok after) (htidy : tidy → steps = some 0) :
    after.Folding clock (left + 1) tidy none read := by
  obtain ⟨rest, hpath, rfl⟩ := leave_eq_ok_iff.1 hleave
  obtain ⟨scope, others, hscopes, hkind, rfl⟩ := closeScope_eq_ok_iff.1 hclose
  have hscopes : walk.scopes = scope :: others := hscopes
  have hsingle := h.single
  have halong := h.along
  rw [hscopes] at hsingle halong
  rw [hpath] at halong
  obtain ⟨hother, hsingle⟩ := List.pairwise_cons.1 hsingle
  have hnone : ∀ other ∈ others, other.kind ≠ .fold := by
    intro other hmem hsame
    exact hother other hmem (hkind.trans hsame.symm)
  refine ⟨hsingle, fun other hmem hsame => absurd hsame (hnone other hmem), ?_⟩
  refine halong.2.leaveFold (fun height => ?_) fun hyes height hheight => ?_
  · exact isOpenAt_eq_false fun other hmem => .inl (hnone other hmem)
  · -- The fold was opened where the walk is now.
    obtain ⟨taken, hsteps, hlength⟩ := h.below scope (hscopes ▸ List.mem_cons_self) hkind
    obtain rfl := Option.some.inj (hsteps.symm.trans (htidy hyes))
    rw [hpath, List.length_cons] at hlength
    apply isOpenAt_eq_false
    refine List.forall_mem_cons.2 ⟨.inr ?_, fun other hmem => .inl (hnone other hmem)⟩
    omega

theorem backtrack {location : Location} {optional : Bool}
    (h : walk.Folding clock left tidy steps read) (hnested : walk.Nested read walk.path.length)
    (hback : walk.backtrack location optional = .ok after) :
    after.Folding clock left tidy (steps.map (· - 1)) read := by
  obtain ⟨gone, rest, scopes, closed, hpath, hclose, -, rfl⟩ := backtrack_eq_ok_iff.1 hback
  have hleft := hnested.leave (leave_eq_ok_iff.2 ⟨_, hpath, rfl⟩)
  obtain ⟨shut, hscopes, hshut, hlower⟩ := of_closeAtHeight hclose hleft.deeper hleft.lower
  have hsingle := h.single
  have halong := h.along
  rw [hscopes] at hsingle halong
  rw [hpath] at halong
  refine ⟨(List.pairwise_append.1 hsingle).2.1, fun scope hscope hkind => ?_, ?_⟩
  · obtain ⟨taken, rfl, hlength⟩ :=
      h.below scope (hscopes ▸ List.mem_append_right _ hscope) hkind
    have hheight := hlower scope hscope
    rw [hpath] at hlength
    simp only [List.length_cons] at hlength ⊢
    exact ⟨taken - 1, rfl, by omega⟩
  · refine halong.2.congr (List.Subset.refl _) fun height hheight => ?_
    refine (isOpenAt_append_of_forall (fun scope hscope => .inr ?_) scopes).symm
    rw [hshut scope hscope]
    exact hheight

/-- The flag of the location at which a walk is. -/
theorem exists_current {location : Location} (h : walk.Folding clock left tidy steps read)
    (hnested : walk.Nested read walk.path.length) (hcurrent : walk.current = .ok location) :
    ∃ relation ∈ read, relation.location = location ∧
      relation.FoldedAt clock left tidy (walk.isInside .fold) := by
  obtain ⟨rest, hpath⟩ := current_eq_ok_iff.1 hcurrent
  have halong := h.along
  have hlower := hnested.lower
  rw [hpath] at halong hlower
  obtain ⟨⟨relation, hrelation, hlocation, hfolded⟩, -⟩ := halong
  refine ⟨relation, hrelation, hlocation, ?_⟩
  rwa [← isOpenAt_eq_isInside fun scope hscope => Nat.le_of_lt_succ (hlower scope hscope)]

end Folding

end Walk

namespace Query

variable {clock : Location → Nat} {left : Nat} {tidy : Prop} {types : TypeTable}

/-- A crossing is flagged by the vertex at which the walk is and by what it opens. -/
theorem foldsOnto_of_cross {walk opened after : Walk} {above relation : Relation}
    {crossing : Crossing} (habove : above.FoldedAt clock left tidy (walk.isInside .fold))
    (hclock : clock relation.location = left)
    (hparent : relation.location.parent? = some above.location)
    (hkind : relation.kind = crossing.kind.relationKind)
    (hopened : walk.opening crossing.kind.scope? = .ok opened)
    (henter : opened.enter types relation.location = .ok (relation.site, after)) :
    above.FoldsOnto clock tidy relation := by
  have hflag : relation.site.inFold = opened.isInside .fold :=
    Walk.isInside_of_enter henter .fold
  have hopens : relation.kind.isFold ↔ crossing.kind.scope? = some .fold := by
    rw [hkind]
    cases crossing.kind <;>
      simp [CrossingKind.relationKind, CrossingKind.scope?, RelationKind.isFold]
  obtain ⟨hinside, houtside⟩ := Walk.isInside_of_opening hopened .fold
  refine ⟨hparent, hclock ▸ habove.early, ?_, ?_, fun hyes hinside => ?_⟩
  · rw [hclock, habove.open_iff, hopens, hflag]
    exact hinside
  · rw [hclock, habove.open_iff, hopens]
    exact houtside
  · rw [hclock]
    exact habove.kept hyes hinside

/-- One instruction keeps track of the open fold. -/
theorem Effect.folding {marked : Option Location} {walk after : Walk} {instruction : Instruction}
    {steps : Option Nat} {read entered : List Relation}
    (h : Effect types marked walk instruction entered after)
    (hfolding : walk.Folding clock left tidy steps read)
    (hnested : walk.Nested read walk.path.length)
    (hclock : ∀ location, instruction.enters → marked = some location → clock location = left)
    (hleaves : tidy → instruction = .unfold → steps = some 0) :
    after.Folding clock (if instruction = .unfold then left + 1 else left) tidy
      (instruction.stepsInFold steps) (read ++ entered) := by
  cases h with
  | start hmarked _ henter =>
      have hnone : walk.opening none = .ok walk := rfl
      obtain ⟨hsingle, hbelow, halong⟩ := hfolding.opening hnone
      exact .enter hsingle hbelow halong (fun scope hscope => (hnested.lower scope hscope).le)
        (hclock _ rfl hmarked) henter
  | @cross _ _ _ _ opened _ hcrossing hmarked _ _ _ hopened henter =>
      have henters := Instruction.enters_of_crossing? hcrossing
      have hlower : ∀ scope ∈ opened.scopes, scope.height ≤ opened.path.length :=
        fun scope hscope => Nat.le_of_lt_succ ((hnested.opening hopened).lower scope hscope)
      rw [if_neg (Instruction.ne_unfold_of_enters henters),
        Instruction.stepsInFold_of_crossing? hcrossing]
      obtain ⟨hsingle, hbelow, halong⟩ := hfolding.opening hopened
      exact .enter hsingle hbelow halong hlower (hclock _ henters hmarked) henter
  | unfold hleave hclose =>
      rw [List.append_nil]
      exact hfolding.leaveFold hleave hclose fun hyes => hleaves hyes rfl
  | backtrack hback =>
      rw [List.append_nil]
      exact hfolding.backtrack hnested hback
  | mark | filter | output =>
      rw [List.append_nil]
      exact hfolding

theorem Effect.foldsOnto {marked : Option Location} {walk after : Walk} {instruction : Instruction}
    {steps : Option Nat} {read entered : List Relation}
    (h : Effect types marked walk instruction entered after)
    (hfolding : walk.Folding clock left tidy steps read)
    (hnested : walk.Nested read walk.path.length)
    (hclock : ∀ location, instruction.enters → marked = some location → clock location = left) :
    ∀ relation ∈ entered, relation.kind = .root ∨
      ∃ above ∈ read, above.FoldsOnto clock tidy relation := by
  cases h with
  | start _ hroot _ => exact List.forall_mem_singleton.2 (.inl hroot)
  | cross hcrossing hmarked hkind hcurrent hparent hopened henter =>
      obtain ⟨above, habove, rfl, hfolded⟩ := hfolding.exists_current hnested hcurrent
      have hnow := hclock _ (Instruction.enters_of_crossing? hcrossing) hmarked
      exact List.forall_mem_singleton.2 (.inr ⟨above, habove,
        foldsOnto_of_cross hfolded hnow hparent hkind hopened henter⟩)
  | unfold | backtrack | mark | filter | output => simp

/-- What is known while instructions are read, when so many folds have been left and the walk is so
many steps below the vertex of the open fold. -/
structure FoldReading (types : TypeTable) (clock : Location → Nat) (tidy : Prop) (left : Nat)
    (steps : Option Nat) (remaining : List Instruction) (walk : Walk) (read : List Relation) :
    Prop where
  clocked : Clocked clock left remaining
  leaves : tidy → leavesFoldsFrom steps remaining
  recorded : walk.Recorded types
  nested : walk.Nested read walk.path.length
  folding : walk.Folding clock left tidy steps read
  onto : ∀ relation ∈ read, relation.kind = .root ∨
    ∃ above ∈ read, above.FoldsOnto clock tidy relation

theorem FoldReading.step {index : Nat} {steps : Option Nat} {instruction : Instruction}
    {rest : List Instruction} {walk after : Walk} {read : List Relation} {blocks : List Block}
    (h : FoldReading types clock tidy left steps (instruction :: rest) walk read)
    (hread : readInstruction types index (nextMarked? (instruction :: rest)) walk instruction =
      .ok (blocks, after)) :
    FoldReading types clock tidy (if instruction = .unfold then left + 1 else left)
      (instruction.stepsInFold steps) rest after (read ++ blocks.filterMap Block.relation?) := by
  have hmoves := (readAs_of_readInstruction h.recorded hread).2
  have heffect := effect_of_readInstruction hread
  have hleaves : tidy → (instruction = .unfold → steps = some 0) ∧
      leavesFoldsFrom (instruction.stepsInFold steps) rest := by
    intro hyes
    have hboth := h.leaves hyes
    rw [leavesFoldsFrom, Bool.and_eq_true] at hboth
    refine ⟨fun hunfold => ?_, hboth.2⟩
    simpa [hunfold] using hboth.1
  refine ⟨h.clocked.2, fun hyes => (hleaves hyes).2, hmoves.recorded h.recorded,
    (hmoves.nested h.nested).1,
    heffect.folding h.folding h.nested h.clocked.1 fun hyes => (hleaves hyes).1, ?_⟩
  intro relation hrelation
  have hfound : relation.kind = .root ∨ ∃ above ∈ read, above.FoldsOnto clock tidy relation := by
    rcases List.mem_append.1 hrelation with hrelation | hrelation
    · exact h.onto relation hrelation
    · exact heffect.foldsOnto h.folding h.nested h.clocked.1 relation hrelation
  refine hfound.imp_right fun ⟨above, habove, honto⟩ => ?_
  exact ⟨above, List.mem_append_left _ habove, honto⟩

/-- Each vertex of a query, other than the one at which it starts, has its flag from the vertex from
which it is reached. -/
theorem foldsOnto_of_blocks {query : Query} {read : Blocks} (hread : query.blocks = .ok read)
    (hplanted : Planted read.relations) :
    ∀ relation ∈ read.relations, relation.kind = .root ∨ ∃ above ∈ read.relations,
      above.FoldsOnto query.unfoldsBefore query.leavesFolds relation := by
  have hstart : FoldReading query.types query.unfoldsBefore query.leavesFolds 0 none
      query.instructions Walk.start [] :=
    ⟨clocked_unfoldsBefore hread hplanted, fun hyes => hyes, Walk.recorded_start _,
      Walk.nested_start [], Walk.folding_start, by simp⟩
  obtain ⟨walk, left, steps, h⟩ := invariant_of_blocks
    (P := fun remaining walk blocks => ∃ left steps,
      FoldReading query.types query.unfoldsBefore query.leavesFolds left steps remaining walk
        (blocks.filterMap Block.relation?))
    ⟨0, none, hstart⟩
    (fun ⟨left, steps, h⟩ hstep => ⟨_, _, List.filterMap_append ▸ h.step hstep⟩)
    (fun ⟨left, steps, h⟩ => ⟨left, steps, trivial, fun _ => rfl, h.recorded, h.nested, h.folding,
      h.onto⟩) hread
  exact h.onto

end Query

namespace Query

variable {query : Query} {read : Blocks} {tree : QueryTree}

theorem foldsOnto_of_hangs (hread : query.blocks = .ok read) (hplanted : Planted read.relations)
    {above below : Node} (h : read.tree.Hangs above below) :
    above.relation.FoldsOnto query.unfoldsBefore query.leavesFolds below.relation := by
  obtain ⟨hroot, howner⟩ := hplanted.relation_eq_of_parent h.above_mem h.below_mem h.parent
  obtain ⟨owner, hmem, honto⟩ := (foldsOnto_of_blocks hread hplanted _
    (mem_relations_of_mem_tree h.below_mem)).resolve_left hroot
  obtain rfl := howner owner hmem honto.parent
  exact honto

/-- Nodes lie inside folds as their flags say, until a fold is left. -/
theorem inheritsUntil_fold (hread : query.blocks = .ok read) (hplanted : Planted read.relations) :
    read.tree.InheritsUntil (fun node => node.relation.site.inFold = true)
      (fun node => node.relation.kind.isFold = true)
      (fun node => query.unfoldsBefore node.location) where
  first := by
    intro node hnode
    obtain ⟨hkind, hflags, -⟩ := outside_of_first hread hplanted hnode
    exact ⟨by simpa [Site.isInside] using hflags .fold, by simp [hkind, RelationKind.isFold]⟩
  early := fun _ _ hhangs => (foldsOnto_of_hangs hread hplanted hhangs).early
  inside_iff := fun _ _ hhangs => (foldsOnto_of_hangs hread hplanted hhangs).inside
  outside := fun _ _ hhangs => (foldsOnto_of_hangs hread hplanted hhangs).outside

/-- What the fold flag of a node tells.  A node is flagged exactly if it or a node above it is a
fold and no fold was left between the entries of the two.  Between two folds, one below the other, a
fold was left.  So if each fold is left at its own vertex, a node is flagged exactly if it or a node
above it is a fold, and no fold lies below another one. -/
theorem inFold_iff_exists_open (h : query.tree = .ok tree) :
    (∀ node ∈ tree.nodes, (node.relation.site.inFold ↔ ∃ fold ∈ tree.nodes,
      Relation.ReflTransGen tree.Hangs fold node ∧ fold.relation.kind.isFold ∧
        query.unfoldsBefore fold.location = query.unfoldsBefore node.location)) ∧
    (∀ above below, Relation.TransGen tree.Hangs above below → above.relation.kind.isFold →
      below.relation.kind.isFold →
        query.unfoldsBefore above.location < query.unfoldsBefore below.location) ∧
    (query.leavesFolds →
      (∀ node ∈ tree.nodes, (node.relation.site.inFold ↔ ∃ fold ∈ tree.nodes,
        Relation.ReflTransGen tree.Hangs fold node ∧ fold.relation.kind.isFold)) ∧
      ∀ above below, Relation.TransGen tree.Hangs above below →
        ¬ (above.relation.kind.isFold ∧ below.relation.kind.isFold)) := by
  obtain ⟨read, hread, hassemblable, rfl⟩ := tree_eq_ok_iff.1 h
  have hplanted := hassemblable.planted
  have hrooted := Blocks.rooted_tree hplanted
  have hfolds := inheritsUntil_fold hread hplanted
  refine ⟨hfolds.inside_iff_exists hrooted, ?_, fun htidy => ?_⟩
  · intro above below hbelow
    exact hfolds.lt_of_opens_below hrooted hbelow
  · have hinherits := hfolds.inherits fun above below hhangs =>
      (foldsOnto_of_hangs hread hplanted hhangs).kept htidy
    refine ⟨hinherits.inside_iff_exists hrooted, ?_⟩
    rintro above below hbelow ⟨habove, hagain⟩
    exact hinherits.not_opens_below hrooted hbelow habove hagain

/-- Animals with all their young and the sites that keep those. -/
def brood : Pattern where
  startClass := "Animal"
  vertex := ⟨"Animal", [], [⟨"name", "animal"⟩]⟩
  branches := .branch ⟨⟨"child", .outward⟩, .fold⟩ ⟨"Animal", [], [⟨"name", "young"⟩]⟩
    (.branch ⟨⟨"keeps", .inward⟩, .mandatory⟩ ⟨"Site", [], [⟨"city", "city"⟩]⟩ .none .none) .none

/-- The sites that keep the young are flagged, and lie below a fold. -/
theorem exists_fold_above_brood :
    (Query.mk brood.stream brood.types).tree = .ok brood.tree ∧
      (Query.mk brood.stream brood.types).leavesFolds ∧
      ∃ node ∈ brood.tree.nodes, node.typeName = "Site" ∧ node.relation.site.inFold ∧
        ∃ fold ∈ brood.tree.nodes, Relation.ReflTransGen brood.tree.Hangs fold node ∧
          fold.relation.kind.isFold := by
  have htree : (Query.mk brood.stream brood.types).tree = .ok brood.tree := by cbv
  have htidy : (Query.mk brood.stream brood.types).leavesFolds := by cbv
  have hnode : ∃ node ∈ brood.tree.nodes, node.typeName = "Site" ∧
      node.relation.site.inFold := by decide
  obtain ⟨node, hnode, htype, hinside⟩ := hnode
  obtain ⟨-, -, hflags⟩ := inFold_iff_exists_open htree
  exact ⟨htree, htidy, node, hnode, htype, hinside, ((hflags htidy).1 node hnode).1 hinside⟩

/-- Animals with all their young.  The fold is left at the sites that keep those, and the walk goes
on from the young to their owners and to their own young. -/
def strayed : Query where
  instructions := [
    .start "Animal", .output "name" "animal", .mark ⟨["Animal"]⟩,
    .fold ⟨"child", .outward⟩, .output "name" "young", .mark ⟨["Animal", "out_child"]⟩,
    .traverse ⟨"keeps", .inward⟩ false, .mark ⟨["Animal", "out_child", "in_keeps"]⟩,
    .unfold, .mark ⟨["Animal", "out_child"]⟩,
    .traverse ⟨"owns", .inward⟩ false, .mark ⟨["Animal", "out_child", "in_owns"]⟩,
    .backtrack ⟨["Animal", "out_child"]⟩ false, .mark ⟨["Animal", "out_child"]⟩,
    .fold ⟨"child", .outward⟩, .mark ⟨["Animal", "out_child", "out_child"]⟩,
    .unfold, .mark ⟨["Animal", "out_child"]⟩,
    .backtrack ⟨["Animal"]⟩ false, .mark ⟨["Animal"]⟩,
    .result [("animal", ⟨⟨["Animal"]⟩, "name"⟩), ("young", ⟨⟨["Animal", "out_child"]⟩, "name"⟩)]]
  types := .ofList [
    (⟨["Animal"]⟩, ⟨"Animal", none⟩),
    (⟨["Animal", "out_child"]⟩, ⟨"Animal", none⟩),
    (⟨["Animal", "out_child", "in_keeps"]⟩, ⟨"Site", none⟩),
    (⟨["Animal", "out_child", "in_owns"]⟩, ⟨"Person", none⟩),
    (⟨["Animal", "out_child", "out_child"]⟩, ⟨"Animal", none⟩)]

/-- A vertex below a fold is not flagged, and a fold lies below another one. -/
theorem strayed_from_fold :
    ∃ tree, strayed.tree = .ok tree ∧ ∃ fold, fold.relation.kind.isFold ∧
      (∃ node, tree.Hangs fold node ∧ ¬ node.relation.site.inFold) ∧
      ∃ again, tree.Hangs fold again ∧ again.relation.kind.isFold := by
  have hfound : strayed.tree.map (fun tree => decide (∃ fold ∈ tree.nodes,
      fold.relation.kind.isFold ∧
      (∃ node ∈ tree.nodes, node.parent = some fold.id ∧ ¬ node.relation.site.inFold) ∧
      ∃ again ∈ tree.nodes, again.parent = some fold.id ∧ again.relation.kind.isFold)) =
      .ok true := by
    cbv
  obtain ⟨tree, htree, hfound⟩ := map_eq_ok_iff.1 hfound
  obtain ⟨fold, hfold, hkind, ⟨node, hnode, hparent, hflag⟩, again, hagain, hbelow, hfolded⟩ :=
    of_decide_eq_true hfound
  exact ⟨tree, htree, fold, hkind, ⟨node, ⟨hfold, hnode, hparent⟩, hflag⟩, again,
    ⟨hfold, hagain, hbelow⟩, hfolded⟩

end Query

end TraversalSql
