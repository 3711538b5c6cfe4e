import TraversalSql.Query.Blocks
import TraversalSql.Proofs.Outcome

/-!
What it says about a query that its instructions were read.  Each instruction gave its own blocks:
a crossing gave the vertex reached, of the type that the table has for its location, and a filter
gave its comparison at the location marked next.  Each step of the walk is described in full by the
walk it leaves behind.
-/

namespace TraversalSql

open Outcome

/-- What a walk recorded at a location belongs to it, and has the type of the table. -/
def Walk.Recorded (walk : Walk) (types : TypeTable) : Prop :=
  ∀ location site, walk.sites.find? location = some site →
    site.location = location ∧ types.typeName? location = some site.currentType

namespace Walk

theorem recorded_start (types : TypeTable) : start.Recorded types := by
  intro location site h
  exact absurd h (by simp [start])

section Steps

variable {walk after : Walk} {location : Location} {kind : ScopeKind}

theorem current_eq_ok_iff : walk.current = .ok location ↔ ∃ rest, walk.path = location :: rest := by
  cases hpath : walk.path <;> simp [current, hpath]

theorem leave_eq_ok_iff :
    walk.leave = .ok (location, after) ↔
      ∃ rest, walk.path = location :: rest ∧ after = { walk with path := rest } := by
  cases hpath : walk.path <;> simp [leave, hpath, @eq_comm _ after]

theorem openScope_eq_ok_iff :
    walk.openScope kind = .ok after ↔
      walk.isInside kind = false ∧ ∃ openedAt, walk.current = .ok openedAt ∧
        after = { walk with
          scopes := ⟨kind, openedAt, walk.path.length⟩ :: walk.scopes } := by
  unfold openScope
  simp only [throw_bind]
  cases hinside : walk.isInside kind with
  | true => simp [throw_eq_ok_iff]
  | false =>
      simp only [Bool.false_eq_true, if_false, bind_eq_ok_iff, pure_eq_ok_iff, @eq_comm _ after,
        true_and]

theorem closeScope_eq_ok_iff :
    walk.closeScope kind = .ok after ↔
      ∃ scope rest, walk.scopes = scope :: rest ∧ scope.kind = kind ∧
        after = { walk with
          scopes := rest
          optionalsClosed := walk.optionalsClosed + if kind = .optional then 1 else 0 } := by
  unfold closeScope
  cases walk.scopes with
  | nil => simp
  | cons scope rest =>
      by_cases hkind : scope.kind = kind
      · simp [hkind, @eq_comm _ after]
      · simp [hkind]

/-- A location is entered only once, and its site says what is known and open then. -/
theorem enter_eq_ok_iff {types : TypeTable} {site : Site} :
    walk.enter types location = .ok (site, after) ↔
      walk.sites.contains location = false ∧ ∃ typeName outer,
        types.typeName? location = some typeName ∧ outerType types location = .ok outer ∧
        site = ⟨location, walk.isInside .optional, walk.isInside .fold, walk.isInside .recursive,
          typeName, outer⟩ ∧
        after = { walk with
          path := location :: walk.path
          sites := walk.sites.insert location site } := by
  unfold enter
  simp only [throw_bind]
  cases hentered : walk.sites.contains location with
  | true => simp [throw_eq_ok_iff]
  | false =>
      cases htype : types.typeName? location with
      | none => simp [throw_eq_ok_iff]
      | some typeName =>
          simp only [Bool.false_eq_true, if_false, bind_eq_ok_iff, pure_eq_ok_iff, Prod.mk.injEq,
            Option.some.injEq, true_and]
          constructor
          · rintro ⟨outer, houter, rfl, rfl⟩
            exact ⟨typeName, outer, rfl, houter, rfl, rfl⟩
          · rintro ⟨_, outer, rfl, houter, rfl, rfl⟩
            exact ⟨outer, houter, rfl, rfl⟩

/-- Going back leads one location back and closes the scopes that were opened there. -/
theorem backtrack_eq_ok_iff {optional : Bool} :
    walk.backtrack location optional = .ok after ↔
      ∃ gone rest scopes closed, walk.path = gone :: location :: rest ∧
        closeAtHeight location (rest.length + 1) walk.scopes = .ok (scopes, closed) ∧
        (closed != 0) = optional ∧
        after = { walk with
          path := location :: rest
          scopes
          optionalsClosed := walk.optionalsClosed + closed } := by
  unfold backtrack
  simp only [throw_bind]
  constructor
  · intro h
    obtain ⟨⟨gone, left⟩, hleave, h⟩ := bind_eq_ok_iff.1 h
    obtain ⟨path, hpath, rfl⟩ := leave_eq_ok_iff.1 hleave
    obtain ⟨current, hcurrent, h⟩ := bind_eq_ok_iff.1 h
    obtain ⟨rest, rfl⟩ := current_eq_ok_iff.1 hcurrent
    split at h
    · simp [throw_eq_ok_iff] at h
    next hsame =>
    obtain rfl : current = location := by simpa using hsame
    obtain ⟨⟨scopes, closed⟩, hclose, h⟩ := bind_eq_ok_iff.1 h
    dsimp only at h
    split at h
    · simp [throw_eq_ok_iff] at h
    next hoptional =>
    obtain rfl := pure_eq_ok_iff.1 h
    exact ⟨gone, rest, scopes, closed, hpath, hclose, by simpa using hoptional, rfl⟩
  · rintro ⟨gone, rest, scopes, closed, hpath, hclose, hoptional, rfl⟩
    have hleave := leave_eq_ok_iff.2 ⟨_, hpath, rfl⟩
    simp [hleave, ok_bind, current, hclose, hoptional, pure_eq_ok_iff]

end Steps

theorem Recorded.of_sites {walk after : Walk} {types : TypeTable} (h : walk.Recorded types)
    (hsites : after.sites = walk.sites) : after.Recorded types := by
  unfold Recorded
  rw [hsites]
  exact h

theorem Recorded.location_of_siteAt {walk : Walk} {types : TypeTable} (h : walk.Recorded types)
    {location : Location} {site : Site} (hsite : walk.siteAt location = .ok site) :
    site.location = location := by
  unfold siteAt at hsite
  split at hsite
  · next found hfound =>
    obtain rfl := Except.ok.inj hsite
    exact (h location found hfound).1
  · exact absurd hsite (by simp)

theorem Recorded.enter {walk after : Walk} {types : TypeTable} {location : Location} {site : Site}
    (h : walk.Recorded types) (henter : walk.enter types location = .ok (site, after)) :
    after.Recorded types := by
  obtain ⟨-, typeName, outer, htype, -, rfl, rfl⟩ := enter_eq_ok_iff.1 henter
  intro other found hfound
  by_cases hother : other = location
  · subst hother
    rw [OrderedMap.find?_insert_self, Option.some.injEq] at hfound
    subst hfound
    exact ⟨rfl, htype⟩
  · rw [OrderedMap.find?_insert_of_ne _ hother] at hfound
    exact h other found hfound

end Walk

/-- The filter of a block that is one. -/
def Block.predicate? : Block → Option Predicate
  | .predicate p => some p
  | _ => none

/-- What an instruction lists as given out. -/
def Instruction.listed : Instruction → List (String × FieldRef)
  | .result fields => fields
  | _ => []

namespace Query

/-- A vertex that was entered in a given way at the location marked next. -/
structure Entered (types : TypeTable) (marked : Option Location) (kind : RelationKind)
    (edge : Option Traversal) (relation : Relation) : Prop where
  location : marked = some relation.site.location
  typeName : types.typeName? relation.site.location = some relation.site.currentType
  kind : relation.kind = kind
  edge : relation.edge = edge

/-- The blocks that an instruction may give. -/
inductive ReadAs (types : TypeTable) (marked : Option Location) :
    Instruction → List Block → Prop
  | start {startClass : String} {relation : Relation}
      (hentered : Entered types marked .root none relation) :
      ReadAs types marked (.start startClass) [.relation relation]
  | traverse {traversal : Traversal} {optional : Bool} {relation : Relation}
      (hentered : Entered types marked .traverse (some traversal) relation) :
      ReadAs types marked (.traverse traversal optional) [.relation relation]
  | recurse {traversal : Traversal} {depth : Nat} {link : Link} {relation : Relation}
      (hentered : Entered types marked (.recurse depth) (some traversal) relation) :
      ReadAs types marked (.recurse traversal depth) [.link link, .relation relation]
  | fold {traversal : Traversal} {relation : Relation}
      (hentered : Entered types marked .fold (some traversal) relation) :
      ReadAs types marked (.fold traversal) [.relation relation]
  | unfold : ReadAs types marked .unfold []
  | mark {location : Location} : ReadAs types marked (.mark location) []
  | backtrack {location : Location} {optional : Bool} :
      ReadAs types marked (.backtrack location optional) []
  | filter {field operator : String} {params : List String} {tag : Option FieldRef} {site : Site}
      {registered : FilterOperator} (hlocation : marked = some site.location)
      (hoperator : FilterOperator.ofName? operator = some registered) :
      ReadAs types marked (.filter field operator params tag)
        [.predicate ⟨site, field, params, registered, tag⟩]
  | output {field aliasName : String} {site : Site} (hlocation : marked = some site.location) :
      ReadAs types marked (.output field aliasName) [.selection ⟨site, field, aliasName⟩]

/-- What reading one instruction does to a walk. -/
inductive Moves (types : TypeTable) (walk : Walk) : List Block → Walk → Prop
  | stay {blocks : List Block} (hblocks : blocks.filterMap Block.relation? = []) :
      Moves types walk blocks walk
  | start {relation : Relation} {after : Walk} (hroot : relation.kind = .root)
      (henter : walk.enter types relation.site.location = .ok (relation.site, after)) :
      Moves types walk [.relation relation] after
  | cross {blocks : List Block} {relation : Relation} {current : Location} {opened after : Walk}
      (hblocks : blocks.filterMap Block.relation? = [relation])
      (hcurrent : walk.current = .ok current)
      (hparent : relation.site.location.parent? = some current)
      (hopened : opened = walk ∨ ∃ kind, walk.openScope kind = .ok opened)
      (henter : opened.enter types relation.site.location = .ok (relation.site, after)) :
      Moves types walk blocks after
  | unfold {location : Location} {left after : Walk}
      (hleave : walk.leave = .ok (location, left))
      (hclose : left.closeScope .fold = .ok after) : Moves types walk [] after
  | backtrack {location : Location} {optional : Bool} {after : Walk}
      (hback : walk.backtrack location optional = .ok after) : Moves types walk [] after

theorem needLocation_eq_ok_iff {index : Nat} {instruction : Instruction} {marked : Option Location}
    {location : Location} :
    needLocation index instruction marked = .ok location ↔ marked = some location := by
  cases marked <;> simp [needLocation]

theorem checkStep_eq_ok_iff {walk : Walk} {location : Location} :
    checkStep walk location = .ok () ↔
      ∃ current, walk.current = .ok current ∧ location.parent? = some current := by
  unfold checkStep
  rw [bind_eq_ok_iff]
  refine exists_congr fun current => and_congr_right fun _ => ?_
  split
  · next hne => simpa [throw_eq_ok_iff] using hne
  · next heq => simpa [pure_eq_ok_iff] using heq

theorem exists_of_enterRelation {types : TypeTable} {walk after : Walk} {location : Location}
    {kind : RelationKind} {edge : Option Traversal} {block : Block}
    (h : enterRelation types walk location kind edge = .ok (block, after)) :
    ∃ relation, block = .relation relation ∧ relation.site.location = location ∧
      Entered types (some relation.site.location) kind edge relation ∧
      walk.enter types relation.site.location = .ok (relation.site, after) := by
  unfold enterRelation at h
  obtain ⟨⟨site, between⟩, henter, h⟩ := bind_eq_ok_iff.1 h
  obtain ⟨rfl, rfl⟩ := Prod.mk.inj (pure_eq_ok_iff.1 h)
  obtain ⟨-, typeName, outer, htype, -, rfl, -⟩ := Walk.enter_eq_ok_iff.1 henter
  exact ⟨_, rfl, rfl, ⟨rfl, htype, rfl, rfl⟩, henter⟩

theorem location_of_siteOf {types : TypeTable} {walk : Walk} (hwalk : walk.Recorded types)
    {location : Location} {site : Site} (h : siteOf walk location = .ok site) :
    site.location = location :=
  hwalk.location_of_siteAt (mapError_eq_ok_iff.1 h)

theorem hasEntered_of_siteOf {walk : Walk} {location : Location} {site : Site}
    (h : siteOf walk location = .ok site) : walk.hasEntered location := by
  rw [Walk.hasEntered, OrderedMap.contains]
  have hsite := mapError_eq_ok_iff.1 h
  unfold Walk.siteAt at hsite
  split at hsite
  · next hfound => rw [hfound]; rfl
  · exact absurd hsite (by simp)

/-- What a success of one instruction says: which blocks it gave, and what it did to the walk. -/
theorem readAs_of_readInstruction {types : TypeTable} {index : Nat} {marked : Option Location}
    {walk after : Walk} {instruction : Instruction} {blocks : List Block}
    (hwalk : walk.Recorded types)
    (h : readInstruction types index marked walk instruction = .ok (blocks, after)) :
    ReadAs types marked instruction blocks ∧ Moves types walk blocks after := by
  cases instruction with
  | start startClass =>
      simp only [readInstruction, bind_eq_ok_iff, needLocation_eq_ok_iff, pure_eq_ok_iff,
        Prod.mk.injEq] at h
      obtain ⟨location, rfl, ⟨block, entered⟩, henter, rfl, rfl⟩ := h
      obtain ⟨relation, rfl, rfl, hentered, hsite⟩ := exists_of_enterRelation henter
      exact ⟨.start hentered, .start hentered.kind hsite⟩
  | traverse traversal optional =>
      simp only [readInstruction, bind_eq_ok_iff, needLocation_eq_ok_iff] at h
      obtain ⟨location, rfl, _, hstep, h⟩ := h
      obtain ⟨current, hcurrent, hparent⟩ := checkStep_eq_ok_iff.1 hstep
      -- An optional crossing opens a scope first.
      have hopened : ∃ opened block, (opened = walk ∨ ∃ kind, walk.openScope kind = .ok opened) ∧
          blocks = [block] ∧
          enterRelation types opened location .traverse (some traversal) = .ok (block, after) := by
        split at h
        · simp only [bind_eq_ok_iff, pure_eq_ok_iff, Prod.mk.injEq] at h
          obtain ⟨opened, hopened, ⟨block, entered⟩, henter, rfl, rfl⟩ := h
          exact ⟨opened, block, .inr ⟨_, hopened⟩, rfl, henter⟩
        · simp only [bind_eq_ok_iff, pure_eq_ok_iff, Prod.mk.injEq] at h
          obtain ⟨_, rfl, ⟨block, entered⟩, henter, rfl, rfl⟩ := h
          exact ⟨walk, block, .inl rfl, rfl, henter⟩
      obtain ⟨opened, block, hopened, rfl, henter⟩ := hopened
      obtain ⟨relation, rfl, rfl, hentered, hsite⟩ := exists_of_enterRelation henter
      exact ⟨.traverse hentered, .cross rfl hcurrent hparent hopened hsite⟩
  | recurse traversal depth =>
      simp only [readInstruction, bind_eq_ok_iff, needLocation_eq_ok_iff, pure_eq_ok_iff,
        Prod.mk.injEq] at h
      obtain ⟨location, rfl, _, hstep, site, -, opened, hopened, ⟨block, entered⟩, henter, rfl,
        rfl⟩ := h
      obtain ⟨current, hcurrent, hparent⟩ := checkStep_eq_ok_iff.1 hstep
      obtain ⟨relation, rfl, rfl, hentered, hsite⟩ := exists_of_enterRelation henter
      exact ⟨.recurse hentered, .cross rfl hcurrent hparent (.inr ⟨_, hopened⟩) hsite⟩
  | fold traversal =>
      simp only [readInstruction, bind_eq_ok_iff, needLocation_eq_ok_iff, pure_eq_ok_iff,
        Prod.mk.injEq] at h
      obtain ⟨location, rfl, _, hstep, opened, hopened, ⟨block, entered⟩, henter, rfl, rfl⟩ := h
      obtain ⟨current, hcurrent, hparent⟩ := checkStep_eq_ok_iff.1 hstep
      obtain ⟨relation, rfl, rfl, hentered, hsite⟩ := exists_of_enterRelation henter
      exact ⟨.fold hentered, .cross rfl hcurrent hparent (.inr ⟨_, hopened⟩) hsite⟩
  | unfold =>
      simp only [readInstruction, bind_eq_ok_iff, pure_eq_ok_iff, Prod.mk.injEq] at h
      obtain ⟨⟨location, left⟩, hleave, closed, hclosed, rfl, rfl⟩ := h
      exact ⟨.unfold, .unfold hleave hclosed⟩
  | mark location =>
      simp only [readInstruction, bind_eq_ok_iff, throw_bind] at h
      obtain ⟨current, -, h⟩ := h
      split at h
      · simp [throw_eq_ok_iff] at h
      · obtain ⟨rfl, rfl⟩ := Prod.mk.inj (pure_eq_ok_iff.1 h)
        exact ⟨.mark, .stay rfl⟩
  | backtrack location optional =>
      simp only [readInstruction, bind_eq_ok_iff, pure_eq_ok_iff, Prod.mk.injEq] at h
      obtain ⟨back, hback, rfl, rfl⟩ := h
      exact ⟨.backtrack, .backtrack hback⟩
  | filter field operator params tag =>
      simp only [readInstruction, bind_eq_ok_iff, needLocation_eq_ok_iff, throw_bind] at h
      obtain ⟨location, rfl, site, hsite, h⟩ := h
      cases hoperator : FilterOperator.ofName? operator with
      | none => simp [hoperator, throw_eq_ok_iff] at h
      | some registered =>
          simp only [hoperator] at h
          have hread : pure ([Block.predicate ⟨site, field, params, registered, tag⟩], walk) =
              (Except.ok (blocks, after) : Except QueryError _) := by
            split at h
            · split at h
              · simp [throw_eq_ok_iff] at h
              · exact h
            · exact h
          obtain ⟨rfl, rfl⟩ := Prod.mk.inj (pure_eq_ok_iff.1 hread)
          have hlocation : some location = some site.location := by
            rw [location_of_siteOf hwalk hsite]
          exact ⟨.filter hlocation hoperator, .stay rfl⟩
  | output field aliasName =>
      simp only [readInstruction, bind_eq_ok_iff, needLocation_eq_ok_iff, pure_eq_ok_iff,
        Prod.mk.injEq] at h
      obtain ⟨location, rfl, site, hsite, rfl, rfl⟩ := h
      have hlocation : some location = some site.location := by
        rw [location_of_siteOf hwalk hsite]
      exact ⟨.output hlocation, .stay rfl⟩
  | result fields => exact absurd h (by simp [readInstruction])

/-- What a walk records belongs to its location, whatever is read. -/
theorem Moves.recorded {types : TypeTable} {walk after : Walk} {blocks : List Block}
    (h : Moves types walk blocks after) (hwalk : walk.Recorded types) : after.Recorded types := by
  cases h with
  | stay => exact hwalk
  | start _ henter => exact hwalk.enter henter
  | cross _ _ _ hopened henter =>
      rcases hopened with rfl | ⟨kind, hopen⟩
      · exact hwalk.enter henter
      · obtain ⟨-, openedAt, -, rfl⟩ := Walk.openScope_eq_ok_iff.1 hopen
        refine Walk.Recorded.enter ?_ henter
        exact hwalk.of_sites rfl
  | unfold hleave hclose =>
      obtain ⟨rest, -, rfl⟩ := Walk.leave_eq_ok_iff.1 hleave
      obtain ⟨_, _, -, -, rfl⟩ := Walk.closeScope_eq_ok_iff.1 hclose
      exact hwalk.of_sites rfl
  | backtrack hback =>
      obtain ⟨_, _, _, _, -, -, -, rfl⟩ := Walk.backtrack_eq_ok_iff.1 hback
      exact hwalk.of_sites rfl

/-- Instructions that were read: each gave its own blocks, and only the last one may list the
outputs. -/
inductive Reading (types : TypeTable) : List Instruction → Blocks → Prop
  | nil : Reading types [] ⟨[], []⟩
  | result {fields : List (String × FieldRef)} : Reading types [.result fields] ⟨[], fields⟩
  | cons {instruction : Instruction} {rest : List Instruction} {blocks : List Block}
      {read : Blocks}
      (hfirst : ReadAs types (nextMarked? (instruction :: rest)) instruction blocks)
      (hrest : Reading types rest read) :
      Reading types (instruction :: rest) { read with blocks := blocks ++ read.blocks }

/-- What holds where nothing is left but the list of what is given out, and of a stream whenever it
holds of what follows the first instruction, holds of every stream that is read. -/
theorem readFrom_induction {types : TypeTable}
    {motive : Walk → List Instruction → Blocks → Walk → Prop}
    (nil : ∀ walk, motive walk [] ⟨[], []⟩ walk)
    (result : ∀ walk fields, motive walk [.result fields] ⟨[], fields⟩ walk)
    (cons : ∀ {index : Nat} {walk between after : Walk} {instruction : Instruction}
      {rest : List Instruction} {blocks : List Block} {read : Blocks},
      readInstruction types index (nextMarked? (instruction :: rest)) walk instruction =
        .ok (blocks, between) → motive between rest read after →
      motive walk (instruction :: rest) { read with blocks := blocks ++ read.blocks } after)
    {index : Nat} {walk after : Walk} {instructions : List Instruction} {read : Blocks}
    (h : readFrom types index walk instructions = .ok (read, after)) :
    motive walk instructions read after := by
  induction instructions generalizing index walk read after with
  | nil =>
      obtain ⟨rfl, rfl⟩ := Prod.mk.inj (Except.ok.inj h)
      exact nil walk
  | cons instruction rest ih =>
      unfold readFrom at h
      split at h
      · next heq => exact absurd heq (by simp)
      · next fields heq =>
        obtain ⟨rfl, rfl⟩ := List.cons.inj heq
        obtain ⟨rfl, rfl⟩ := Prod.mk.inj (Except.ok.inj h)
        exact result walk fields
      · next first others _ heq =>
        obtain ⟨rfl, rfl⟩ := List.cons.inj heq
        obtain ⟨⟨blocks, between⟩, hfirst, h⟩ := bind_eq_ok_iff.1 h
        obtain ⟨⟨below, last⟩, hrest, h⟩ := bind_eq_ok_iff.1 h
        obtain ⟨rfl, rfl⟩ := Prod.mk.inj (pure_eq_ok_iff.1 h)
        exact cons hfirst (ih hrest)

theorem reading_of_readFrom {types : TypeTable} {index : Nat} {walk after : Walk}
    {instructions : List Instruction} {read : Blocks} (hwalk : walk.Recorded types)
    (h : readFrom types index walk instructions = .ok (read, after)) :
    Reading types instructions read := by
  refine readFrom_induction (motive := fun walk instructions read _ =>
    walk.Recorded types → Reading types instructions read) ?nil ?result ?cons h hwalk
  case nil => exact fun _ _ => .nil
  case result => exact fun _ _ _ => .result
  case cons =>
    intro index walk between after instruction rest blocks read hfirst ih hwalk
    obtain ⟨hread, hmoves⟩ := readAs_of_readInstruction hwalk hfirst
    exact .cons hread (ih (hmoves.recorded hwalk))

/-- What holds at the start, and is kept by each instruction, holds when all instructions are read.
It may speak of the instructions that are still to be read and of the blocks read so far. -/
theorem invariant_of_readFrom {types : TypeTable}
    {P : List Instruction → Walk → List Block → Prop}
    (hstep : ∀ {index : Nat} {walk after : Walk} {instruction : Instruction}
      {rest : List Instruction} {earlier blocks : List Block},
      P (instruction :: rest) walk earlier →
      readInstruction types index (nextMarked? (instruction :: rest)) walk instruction =
        .ok (blocks, after) →
      P rest after (earlier ++ blocks))
    (hresult : ∀ {walk : Walk} {fields : List (String × FieldRef)} {earlier : List Block},
      P [.result fields] walk earlier → P [] walk earlier)
    {index : Nat} {walk after : Walk} {instructions : List Instruction} {read : Blocks}
    {earlier : List Block} (hstart : P instructions walk earlier)
    (h : readFrom types index walk instructions = .ok (read, after)) :
    P [] after (earlier ++ read.blocks) := by
  refine readFrom_induction (motive := fun walk instructions read after => ∀ earlier,
    P instructions walk earlier → P [] after (earlier ++ read.blocks))
    ?nil ?result ?cons h earlier hstart
  case nil =>
    intro walk earlier hstart
    rwa [List.append_nil]
  case result =>
    intro walk fields earlier hstart
    rw [List.append_nil]
    exact hresult hstart
  case cons =>
    intro index walk between after instruction rest blocks read hfirst ih earlier hstart
    rw [← List.append_assoc]
    exact ih _ (hstep hstart hfirst)

/-- What a query gives out: the aliases and their sources, as it lists them. -/
def outputs (query : Query) : List (String × FieldRef) :=
  query.instructions.flatMap Instruction.listed

/-- A filter as a query asks for it, with the location marked next. -/
structure FilterRequest where
  location : Option Location
  field : String
  operator : String
  params : List String
  tag : Option FieldRef
deriving DecidableEq, Repr

/-- The filters that instructions ask for. -/
def requestsOf : List Instruction → List FilterRequest
  | [] => []
  | .filter field operator params tag :: rest =>
      ⟨nextMarked? rest, field, operator, params, tag⟩ :: requestsOf rest
  | _ :: rest => requestsOf rest

def requests (query : Query) : List FilterRequest := requestsOf query.instructions

/-- A filter that was read as it was asked for. -/
structure FilterRequest.Met (request : FilterRequest) (predicate : Predicate) : Prop where
  location : request.location = some predicate.site.location
  field : request.field = predicate.field
  operator : FilterOperator.ofName? request.operator = some predicate.operator
  params : request.params = predicate.params
  tag : request.tag = predicate.tag

namespace Reading

variable {types : TypeTable} {instructions : List Instruction} {read : Blocks}

theorem outputs_eq (h : Reading types instructions read) :
    read.outputs = instructions.flatMap Instruction.listed := by
  induction h with
  | nil => rfl
  | result => simp [Instruction.listed]
  | cons hfirst _ ih =>
      rw [List.flatMap_cons, ← ih]
      cases hfirst <;> rfl

/-- Each filter is read, once and in order. -/
theorem met (h : Reading types instructions read) :
    List.Forall₂ FilterRequest.Met (requestsOf instructions)
      (read.blocks.filterMap Block.predicate?) := by
  induction h with
  | nil => exact .nil
  | result => exact .nil
  | cons hfirst _ ih =>
      cases hfirst with
      | filter hlocation hoperator => exact .cons ⟨hlocation, rfl, hoperator, rfl, rfl⟩ ih
      | _ => exact ih

/-- The type of each vertex is that of the table. -/
theorem typeName (h : Reading types instructions read) :
    ∀ relation ∈ read.blocks.filterMap Block.relation?,
      types.typeName? relation.site.location = some relation.site.currentType := by
  induction h with
  | nil => simp
  | result => simp
  | cons hfirst _ ih =>
      rw [List.filterMap_append]
      intro relation hrelation
      rcases List.mem_append.1 hrelation with hrelation | hrelation
      · cases hfirst with
        | start hentered | traverse hentered | recurse hentered | fold hentered =>
            simp only [Block.relation?, List.filterMap_cons, List.filterMap_nil,
              List.mem_singleton] at hrelation
            exact hrelation ▸ hentered.typeName
        | _ => simp [Block.relation?] at hrelation
      · exact ih relation hrelation

end Reading

/-- A query that is read starts at a class, and its instructions are read from the first on. -/
theorem exists_readFrom_of_blocks {query : Query} {read : Blocks} (h : query.blocks = .ok read) :
    query.instructions.head?.any Instruction.isStart ∧
      ∃ walk, readFrom query.types 0 Walk.start query.instructions = .ok (read, walk) := by
  unfold blocks at h
  obtain ⟨_, henvelope, h⟩ := bind_eq_ok_iff.1 h
  obtain ⟨⟨found, walk⟩, hread, h⟩ := bind_eq_ok_iff.1 h
  obtain ⟨_, -, h⟩ := bind_eq_ok_iff.1 h
  obtain rfl := pure_eq_ok_iff.1 h
  refine ⟨?_, walk, hread⟩
  unfold checkEnvelope at henvelope
  simp only [throw_bind] at henvelope
  split at henvelope
  · simp [throw_eq_ok_iff] at henvelope
  · next hstart => simpa using hstart

theorem reading_of_blocks {query : Query} {read : Blocks} (h : query.blocks = .ok read) :
    Reading query.types query.instructions read := by
  obtain ⟨-, walk, hread⟩ := exists_readFrom_of_blocks h
  exact reading_of_readFrom (Walk.recorded_start _) hread

/-- What holds before anything is read, and is kept by each instruction, holds of a query that is
read. -/
theorem invariant_of_blocks {query : Query} {read : Blocks}
    {P : List Instruction → Walk → List Block → Prop}
    (hstart : P query.instructions Walk.start [])
    (hstep : ∀ {index : Nat} {walk after : Walk} {instruction : Instruction}
      {rest : List Instruction} {earlier blocks : List Block},
      P (instruction :: rest) walk earlier →
      readInstruction query.types index (nextMarked? (instruction :: rest)) walk instruction =
        .ok (blocks, after) →
      P rest after (earlier ++ blocks))
    (hresult : ∀ {walk : Walk} {fields : List (String × FieldRef)} {earlier : List Block},
      P [.result fields] walk earlier → P [] walk earlier)
    (h : query.blocks = .ok read) : ∃ walk, P [] walk read.blocks := by
  obtain ⟨-, walk, hread⟩ := exists_readFrom_of_blocks h
  exact ⟨walk, invariant_of_readFrom hstep hresult hstart hread⟩

/-- The first vertex of a query is the one at which it starts. -/
theorem first_kind_of_blocks {query : Query} {read : Blocks} (h : query.blocks = .ok read) :
    ∀ relation ∈ (read.blocks.filterMap Block.relation?).head?, relation.kind = .root := by
  have hreading := reading_of_blocks h
  have hstart := (exists_readFrom_of_blocks h).1
  generalize query.instructions = instructions at hreading hstart
  cases hreading with
  | nil => exact absurd hstart (by simp)
  | result => exact absurd hstart (by simp [Instruction.isStart])
  | cons hfirst hrest =>
      cases hfirst with
      | start hentered =>
          intro relation hrelation
          exact Option.some.inj hrelation ▸ hentered.kind
      | _ => exact absurd hstart (by simp [Instruction.isStart])

end Query

end TraversalSql
