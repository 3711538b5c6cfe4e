import TraversalSql.Proofs.ScopeNesting

/-!
Calls on a walk that is kept in one place.  The walk is changed field by field, and a call that
fails keeps what it has changed until then, so each call has to make all of its checks first.
Whatever is called, and in whatever order, a call that fails leaves the walk as it was; no location
is on the path twice, no two scopes of a kind are open, and what was recorded at a location stays.
-/

namespace TraversalSql

open Outcome

/-- A question about a walk. -/
inductive Question where
  | finish
  | siteAt (location : Location)
  | currentSite
  | current
  | hasEntered (location : Location)
  | scopeOpenedHere
  | optionalsClosed
deriving DecidableEq, Repr

/-- A call on a walk. -/
inductive Call where
  | enter (location : Location)
  | leave
  | openScope (kind : ScopeKind)
  | closeScope (kind : ScopeKind)
  | ask (question : Question)
deriving DecidableEq, Repr

/-- What a call returns. -/
inductive Answer where
  | done
  | site (site : Site)
  | location (location : Location)
  | truth (value : Bool)
  | scope (kind : Option ScopeKind)
  | count (number : Nat)
deriving DecidableEq, Repr

/-- The answer to a question about a walk. -/
def Walk.answer (walk : Walk) : Question → Except QueryError Answer
  | .finish => walk.finish.map fun _ => .done
  | .siteAt location => (walk.siteAt location).map .site
  | .currentSite => walk.currentSite.map .site
  | .current => walk.current.map .location
  | .hasEntered location => .ok (.truth (walk.hasEntered location))
  | .scopeOpenedHere => .ok (.scope walk.scopeOpenedHere?)
  | .optionalsClosed => .ok (.count walk.optionalsClosed)

/-- Computations on a walk that is kept in one place.  A failure keeps what was changed before. -/
abbrev InPlace := ExceptT QueryError (StateM Walk)

namespace InPlace

variable {α β : Type}

/-- Enter a location: its site is recorded, then it is put on the path. -/
def enter (types : TypeTable) (location : Location) : InPlace Site := do
  if (← get).hasEntered location then
    throw (.alreadyEntered location)
  let some currentType := types.typeName? location | throw (.unknownType location)
  let outerType ← ofExcept (Walk.outerType types location)
  let walk ← get
  let site : Site := {
    location, currentType, outerType
    inOptional := walk.isInside .optional
    inFold := walk.isInside .fold
    inRecursion := walk.isInside .recursive }
  modify fun walk => { walk with sites := walk.sites.insert location site }
  modify fun walk => { walk with path := location :: walk.path }
  return site

def leave : InPlace Location := do
  match (← get).path with
  | [] => throw .noCurrentLocation
  | location :: rest =>
      modify fun walk => { walk with path := rest }
      return location

def openScope (kind : ScopeKind) : InPlace Unit := do
  if (← get).isInside kind then
    throw (.badScope (.alreadyInside kind))
  let openedAt ← ofExcept (← get).current
  modify fun walk => { walk with scopes := ⟨kind, openedAt, walk.path.length⟩ :: walk.scopes }

/-- Take the innermost scope away, which must be of the given kind. -/
def dropScope (kind : ScopeKind) : InPlace Unit := do
  match (← get).scopes with
  | [] => throw (.badScope (.notInside kind))
  | scope :: rest =>
      if scope.kind = kind then
        modify fun walk => { walk with scopes := rest }
      else
        throw (.badScope (.notInnermost kind scope.kind scope.openedAt))

/-- Close the innermost scope; an optional one is counted when it is gone. -/
def closeScope (kind : ScopeKind) : InPlace Unit := do
  dropScope kind
  if kind = .optional then
    modify fun walk => { walk with optionalsClosed := walk.optionalsClosed + 1 }

def make (types : TypeTable) : Call → InPlace Answer
  | .enter location => .site <$> enter types location
  | .leave => .location <$> leave
  | .openScope kind => (fun _ => .done) <$> openScope kind
  | .closeScope kind => (fun _ => .done) <$> closeScope kind
  | .ask question => do ofExcept ((← get).answer question)

/-- What a computation on a walk gives, and the walk that it leaves behind. -/
def outcome (x : InPlace α) (walk : Walk) : Except QueryError α × Walk := x.run.run walk

theorem outcome_bind (x : InPlace α) (f : α → InPlace β) (walk : Walk) :
    (x >>= f).outcome walk =
      match x.outcome walk with
      | (.ok a, after) => (f a).outcome after
      | (.error e, after) => (.error e, after) := by
  unfold outcome
  rw [ExceptT.run_bind, StateT.run_bind]
  rcases x.run.run walk with ⟨_ | _, _⟩ <;> rfl

theorem outcome_map (f : α → β) (x : InPlace α) (walk : Walk) :
    (f <$> x).outcome walk = ((x.outcome walk).1.map f, (x.outcome walk).2) := by
  unfold outcome
  rw [ExceptT.run_map, StateT.run_map]
  rcases x.run.run walk with ⟨_ | _, _⟩ <;> rfl

theorem outcome_get (walk : Walk) : (get : InPlace Walk).outcome walk = (.ok walk, walk) := rfl

theorem outcome_ofExcept (x : Except QueryError α) (walk : Walk) :
    (ofExcept x : InPlace α).outcome walk = (x, walk) := by
  cases x <;> rfl

end InPlace

namespace Walk

open InPlace

/-- A step to another walk, taken in one place: a failure leaves the walk that was there. -/
def settled {α : Type} (walk : Walk) : Except QueryError (α × Walk) → Except QueryError α × Walk
  | .ok (a, after) => (.ok a, after)
  | .error e => (.error e, walk)

/-- What a call that succeeds returns, and the walk after it. -/
def step (types : TypeTable) (walk : Walk) : Call → Except QueryError (Answer × Walk)
  | .enter location => (walk.enter types location).map (Prod.map .site id)
  | .leave => walk.leave.map (Prod.map .location id)
  | .openScope kind => (walk.openScope kind).map (.done, ·)
  | .closeScope kind => (walk.closeScope kind).map (.done, ·)
  | .ask question => (walk.answer question).map (·, walk)

/-- What a call returns, and the walk that it leaves behind. -/
def call (types : TypeTable) (walk : Walk) (call : Call) : Except QueryError Answer × Walk :=
  (make types call).outcome walk

theorem outcome_enter (types : TypeTable) (walk : Walk) (location : Location) :
    (InPlace.enter types location).outcome walk = walk.settled (walk.enter types location) := by
  unfold InPlace.enter Walk.enter hasEntered
  simp only [outcome_bind, outcome_get]
  cases walk.sites.contains location with
  | true => rfl
  | false =>
      cases types.typeName? location with
      | none => rfl
      | some typeName =>
          cases outerType types location with
          | error e => rfl
          | ok outer => rfl

theorem outcome_leave (walk : Walk) : InPlace.leave.outcome walk = walk.settled walk.leave := by
  unfold InPlace.leave Walk.leave
  simp only [outcome_bind, outcome_get]
  cases walk.path with
  | nil => rfl
  | cons location rest => rfl

theorem outcome_openScope (walk : Walk) (kind : ScopeKind) :
    (InPlace.openScope kind).outcome walk =
      walk.settled ((walk.openScope kind).map ((), ·)) := by
  unfold InPlace.openScope Walk.openScope
  simp only [outcome_bind, outcome_get]
  cases walk.isInside kind with
  | true => rfl
  | false =>
      simp only [Bool.false_eq_true, if_false, outcome_bind, outcome_get, outcome_ofExcept]
      cases walk.current with
      | error e => rfl
      | ok openedAt => rfl

theorem outcome_closeScope (walk : Walk) (kind : ScopeKind) :
    (InPlace.closeScope kind).outcome walk =
      walk.settled ((walk.closeScope kind).map ((), ·)) := by
  unfold InPlace.closeScope dropScope Walk.closeScope
  simp only [outcome_bind, outcome_get]
  cases walk.scopes with
  | nil => rfl
  | cons scope rest =>
      by_cases hkind : scope.kind = kind
      · simp only [hkind, if_true]
        cases kind <;> rfl
      · simp only [hkind, if_false]
        rfl

/-- A call makes all of its checks first: one that fails leaves the walk as it is. -/
theorem call_eq_settled (types : TypeTable) (walk : Walk) (call : Call) :
    walk.call types call = walk.settled (walk.step types call) := by
  unfold Walk.call
  cases call with
  | enter location =>
      rw [make, outcome_map, outcome_enter, step]
      cases walk.enter types location <;> rfl
  | leave =>
      rw [make, outcome_map, outcome_leave, step]
      cases walk.leave <;> rfl
  | openScope kind =>
      rw [make, outcome_map, outcome_openScope, step]
      cases walk.openScope kind <;> rfl
  | closeScope kind =>
      rw [make, outcome_map, outcome_closeScope, step]
      cases walk.closeScope kind <;> rfl
  | ask question =>
      simp only [make, outcome_bind, outcome_get, outcome_ofExcept, step]
      cases walk.answer question <;> rfl

/-- The walk after calls one after the other, whether they succeed or fail. -/
def after (types : TypeTable) (walk : Walk) (calls : List Call) : Walk :=
  calls.foldl (fun walk call => (walk.call types call).2) walk

/-- The calls with what each of them returns. -/
def transcript (types : TypeTable) : Walk → List Call → List (Call × Except QueryError Answer)
  | _, [] => []
  | walk, call :: calls =>
      (call, (walk.call types call).1) :: transcript types (walk.call types call).2 calls

/-- Whether an optional scope was closed by a call. -/
def closedOptional : Call × Except QueryError Answer → Bool
  | (.closeScope .optional, .ok _) => true
  | _ => false

theorem after_append (types : TypeTable) (walk : Walk) (calls more : List Call) :
    walk.after types (calls ++ more) = (walk.after types calls).after types more :=
  List.foldl_append

/-- What a call does to a walk: nothing if it fails or only asks, and what its step does
otherwise. -/
inductive Called (types : TypeTable) (walk : Walk) : Call → Except QueryError Answer → Walk → Prop
  | enter {location : Location} {site : Site} {after : Walk}
      (h : walk.enter types location = .ok (site, after)) :
      Called types walk (.enter location) (.ok (.site site)) after
  | leave {location : Location} {after : Walk} (h : walk.leave = .ok (location, after)) :
      Called types walk .leave (.ok (.location location)) after
  | openScope {kind : ScopeKind} {after : Walk} (h : walk.openScope kind = .ok after) :
      Called types walk (.openScope kind) (.ok .done) after
  | closeScope {kind : ScopeKind} {after : Walk} (h : walk.closeScope kind = .ok after) :
      Called types walk (.closeScope kind) (.ok .done) after
  | ask {question : Question} {answer : Answer} (h : walk.answer question = .ok answer) :
      Called types walk (.ask question) (.ok answer) walk
  | fail {call : Call} {e : QueryError} : Called types walk call (.error e) walk

theorem called_call (types : TypeTable) (walk : Walk) (call : Call) :
    walk.Called types call (walk.call types call).1 (walk.call types call).2 := by
  rw [call_eq_settled]
  cases call with
  | enter location =>
      rw [step]
      cases h : walk.enter types location with
      | error e => exact .fail
      | ok entered => exact .enter h
  | leave =>
      rw [step]
      cases h : walk.leave with
      | error e => exact .fail
      | ok left => exact .leave h
  | openScope kind =>
      rw [step]
      cases h : walk.openScope kind with
      | error e => exact .fail
      | ok opened => exact .openScope h
  | closeScope kind =>
      rw [step]
      cases h : walk.closeScope kind with
      | error e => exact .fail
      | ok closed => exact .closeScope h
  | ask question =>
      rw [step]
      cases h : walk.answer question with
      | error e => exact .fail
      | ok answer => exact .ask h

/-- Calls keep what holds at the start and what every step keeps. -/
theorem after_induction {types : TypeTable} {motive : Walk → Prop}
    (hstep : ∀ {walk call reply after}, walk.Called types call reply after → motive walk →
      motive after)
    {walk : Walk} (hwalk : motive walk) (calls : List Call) : motive (walk.after types calls) :=
  calls.foldlRecOn _ hwalk fun walk hwalk call _ => hstep (called_call types walk call) hwalk

theorem isInside_iff {walk : Walk} {kind : ScopeKind} :
    walk.isInside kind ↔ ∃ scope ∈ walk.scopes, scope.kind = kind := by
  simp [isInside]

theorem siteAt_eq_ok_iff {walk : Walk} {location : Location} {site : Site} :
    walk.siteAt location = .ok site ↔ walk.sites.find? location = some site := by
  unfold siteAt
  cases walk.sites.find? location <;> simp

/-- The site of the current location is found exactly if the walk is somewhere and this was
recorded. -/
theorem currentSite_eq_ok_iff {walk : Walk} {site : Site} :
    walk.currentSite = .ok site ↔
      ∃ location, walk.current = .ok location ∧ walk.siteAt location = .ok site := by
  unfold currentSite
  simp only [throw_bind]
  by_cases hempty : walk.sites.isEmpty
  · have hnone : ∀ location, walk.siteAt location ≠ .ok site := by
      intro location hsite
      rw [siteAt_eq_ok_iff, OrderedMap.find?, List.isEmpty_iff.1 hempty] at hsite
      exact absurd hsite (by simp)
    simp [hempty, hnone, throw_eq_ok_iff]
  · simp [hempty, bind_eq_ok_iff]

/-- A walk on whose path no location is found twice, each of them recorded, and of whose open scopes
no two are of a kind. -/
structure Orderly (walk : Walk) : Prop where
  path : walk.path.Nodup
  recorded : ∀ location ∈ walk.path, ∃ site, walk.siteAt location = .ok site
  scopes : (walk.scopes.map OpenScope.kind).Nodup

theorem orderly_start : start.Orderly where
  path := .nil
  recorded := fun _ h => absurd h List.not_mem_nil
  scopes := .nil

namespace Called

variable {types : TypeTable} {walk after : Walk} {call : Call} {reply : Except QueryError Answer}

/-- Only entering a location records anything, and only at a location without a record. -/
theorem sites_cases (h : walk.Called types call reply after) :
    after.sites = walk.sites ∨ ∃ location site, call = .enter location ∧
      reply = .ok (.site site) ∧ walk.sites.find? location = none ∧
      after.sites = walk.sites.insert location site := by
  cases h with
  | @enter location site _ h =>
      obtain ⟨hnew, _, _, -, -, -, rfl⟩ := enter_eq_ok_iff.1 h
      have hnone : walk.sites.find? location = none := by simpa [OrderedMap.contains] using hnew
      exact .inr ⟨location, site, rfl, rfl, hnone, rfl⟩
  | leave h =>
      obtain ⟨rest, -, rfl⟩ := leave_eq_ok_iff.1 h
      exact .inl rfl
  | openScope h =>
      obtain ⟨-, openedAt, -, rfl⟩ := openScope_eq_ok_iff.1 h
      exact .inl rfl
  | closeScope h =>
      obtain ⟨scope, rest, -, -, rfl⟩ := closeScope_eq_ok_iff.1 h
      exact .inl rfl
  | ask h => exact .inl rfl
  | fail => exact .inl rfl

/-- What was recorded stays as it is. -/
theorem siteAt (h : walk.Called types call reply after) {location : Location} {site : Site}
    (hsite : walk.siteAt location = .ok site) : after.siteAt location = .ok site := by
  rw [siteAt_eq_ok_iff] at hsite ⊢
  rcases h.sites_cases with hsame | ⟨other, entered, -, -, hnew, hinserted⟩
  · rw [hsame, hsite]
  · have hne : location ≠ other := by
      rintro rfl
      simp [hsite] at hnew
    rw [hinserted, OrderedMap.find?_insert_of_ne _ hne, hsite]

/-- What is newly recorded is what the call that entered its location returned. -/
theorem siteAt_or_entered (h : walk.Called types call reply after) {location : Location}
    {site : Site} (hsite : after.siteAt location = .ok site) :
    walk.siteAt location = .ok site ∨ call = .enter location ∧ reply = .ok (.site site) := by
  rw [siteAt_eq_ok_iff] at hsite ⊢
  rcases h.sites_cases with hsame | ⟨other, entered, hcall, hreply, -, hinserted⟩
  · exact .inl (hsame ▸ hsite)
  · rw [hinserted] at hsite
    by_cases hother : location = other
    · subst hother
      rw [OrderedMap.find?_insert_self, Option.some.injEq] at hsite
      exact .inr ⟨hcall, hsite ▸ hreply⟩
    · rw [OrderedMap.find?_insert_of_ne _ hother] at hsite
      exact .inl hsite

/-- A site that is returned is the one recorded at the location for which it was asked. -/
theorem exists_of_site {site : Site} (h : walk.Called types call (.ok (.site site)) after) :
    ∃ location, (call = .enter location ∨ call = .ask (.siteAt location) ∨
      call = .ask .currentSite ∧ walk.current = .ok location) ∧
        after.siteAt location = .ok site := by
  cases h with
  | @enter location _ _ h =>
      obtain ⟨-, _, _, -, -, -, rfl⟩ := enter_eq_ok_iff.1 h
      exact ⟨location, .inl rfl, siteAt_eq_ok_iff.2 (OrderedMap.find?_insert_self _ _ _)⟩
  | @ask question _ h =>
      cases question with
      | siteAt location =>
          obtain ⟨found, hfound, hsame⟩ := map_eq_ok_iff.1 h
          exact ⟨location, .inr (.inl rfl), Answer.site.inj hsame ▸ hfound⟩
      | currentSite =>
          obtain ⟨found, hfound, hsame⟩ := map_eq_ok_iff.1 h
          obtain ⟨location, hcurrent, hsite⟩ := currentSite_eq_ok_iff.1 hfound
          exact ⟨location, .inr (.inr ⟨rfl, hcurrent⟩), Answer.site.inj hsame ▸ hsite⟩
      | finish =>
          obtain ⟨_, -, hsame⟩ := map_eq_ok_iff.1 h
          cases hsame
      | current =>
          obtain ⟨_, -, hsame⟩ := map_eq_ok_iff.1 h
          cases hsame
      | hasEntered location => cases h
      | scopeOpenedHere => cases h
      | optionalsClosed => cases h

/-- One call keeps a walk orderly. -/
theorem orderly (h : walk.Called types call reply after) (hwalk : walk.Orderly) :
    after.Orderly := by
  have hrecorded : ∀ location ∈ walk.path, ∃ site, after.siteAt location = .ok site := by
    intro location hlocation
    obtain ⟨site, hsite⟩ := hwalk.recorded location hlocation
    exact ⟨site, h.siteAt hsite⟩
  cases h with
  | @enter location site _ h =>
      obtain ⟨hnew, _, _, -, -, -, rfl⟩ := enter_eq_ok_iff.1 h
      refine ⟨List.nodup_cons.2 ⟨fun hmem => ?_, hwalk.path⟩,
        List.forall_mem_cons.2 ⟨⟨site, ?_⟩, hrecorded⟩, hwalk.scopes⟩
      · obtain ⟨old, hold⟩ := hwalk.recorded location hmem
        simp [OrderedMap.contains, siteAt_eq_ok_iff.1 hold] at hnew
      · exact siteAt_eq_ok_iff.2 (OrderedMap.find?_insert_self _ _ _)
  | leave h =>
      obtain ⟨rest, hpath, rfl⟩ := leave_eq_ok_iff.1 h
      have hnodup := hwalk.path
      rw [hpath] at hnodup hrecorded
      exact ⟨(List.nodup_cons.1 hnodup).2, (List.forall_mem_cons.1 hrecorded).2, hwalk.scopes⟩
  | openScope h =>
      obtain ⟨hinside, openedAt, -, rfl⟩ := openScope_eq_ok_iff.1 h
      refine ⟨hwalk.path, hrecorded, List.nodup_cons.2 ⟨fun hmem => ?_, hwalk.scopes⟩⟩
      exact absurd (isInside_iff.2 (List.mem_map.1 hmem)) (by simp [hinside])
  | closeScope h =>
      obtain ⟨scope, rest, hscopes, -, rfl⟩ := closeScope_eq_ok_iff.1 h
      have hnodup := hwalk.scopes
      rw [hscopes] at hnodup
      exact ⟨hwalk.path, hrecorded, (List.nodup_cons.1 hnodup).2⟩
  | ask h => exact hwalk
  | fail => exact hwalk

theorem eq_of_error {e : QueryError} (h : walk.Called types call (.error e) after) :
    after = walk := by
  cases h
  rfl

theorem enter_eq_ok {location : Location} {site : Site}
    (h : walk.Called types (.enter location) (.ok (.site site)) after) :
    walk.enter types location = .ok (site, after) := by
  cases h
  assumption

theorem optionalsClosed (h : walk.Called types call reply after) :
    after.optionalsClosed = walk.optionalsClosed + (closedOptional (call, reply)).toNat := by
  cases h with
  | enter h =>
      obtain ⟨-, _, _, -, -, -, rfl⟩ := enter_eq_ok_iff.1 h
      rfl
  | leave h =>
      obtain ⟨rest, -, rfl⟩ := leave_eq_ok_iff.1 h
      rfl
  | openScope h =>
      obtain ⟨-, openedAt, -, rfl⟩ := openScope_eq_ok_iff.1 h
      rfl
  | @closeScope kind _ h =>
      obtain ⟨scope, rest, -, -, rfl⟩ := closeScope_eq_ok_iff.1 h
      cases kind <;> rfl
  | ask h => rfl
  | @fail call e =>
      rcases call with _ | _ | _ | (_ | _ | _) | _ <;> rfl

end Called

/-- The counter of optional scopes counts the calls that closed one. -/
theorem optionalsClosed_after (types : TypeTable) (walk : Walk) (calls : List Call) :
    (walk.after types calls).optionalsClosed =
      walk.optionalsClosed + (walk.transcript types calls).countP closedOptional := by
  induction calls generalizing walk with
  | nil => rfl
  | cons call calls ih =>
      rw [transcript, List.countP_cons]
      change (((walk.call types call).2).after types calls).optionalsClosed = _
      rw [ih, (called_call types walk call).optionalsClosed]
      cases closedOptional (call, (walk.call types call).1) <;> grind

/-- What is recorded after some calls was returned by one of them, which entered the location. -/
theorem exists_entered_of_siteAt {types : TypeTable} {calls : List Call} {location : Location}
    {site : Site} (h : (start.after types calls).siteAt location = .ok site) :
    ∃ before later, calls = before ++ .enter location :: later ∧
      ((start.after types before).call types (.enter location)).1 = .ok (.site site) := by
  induction calls using List.reverseRecOn with
  | nil => exact absurd h (by simp [after, siteAt_eq_ok_iff, start])
  | append_singleton calls call ih =>
      rw [after_append] at h
      rcases (called_call types _ call).siteAt_or_entered h with hearlier | ⟨rfl, hreply⟩
      · obtain ⟨before, later, rfl, hreply⟩ := ih hearlier
        exact ⟨before, later ++ [call], by simp, hreply⟩
      · exact ⟨calls, [], rfl, hreply⟩

/-- What holds of the walk after calls one after the other. -/
structure SafeAfter (types : TypeTable) (calls : List Call) (walk : Walk) : Prop where
  /-- A call does what its step does. -/
  agrees : ∀ call, walk.call types call = walk.settled (walk.step types call)
  /-- A call that fails leaves the walk as it is. -/
  failed : ∀ {call e}, (walk.call types call).1 = .error e → (walk.call types call).2 = walk
  orderly : walk.Orderly
  /-- A site that is returned is the one recorded at the location for which it was asked. -/
  returned : ∀ {call site}, (walk.call types call).1 = .ok (.site site) →
    ∃ location, (call = .enter location ∨ call = .ask (.siteAt location) ∨
      call = .ask .currentSite ∧ walk.current = .ok location) ∧
        (walk.call types call).2.siteAt location = .ok site
  /-- What is recorded stays as it is, whatever is called. -/
  lasting : ∀ {location site}, walk.siteAt location = .ok site →
    ∀ more, (walk.after types more).siteAt location = .ok site
  /-- What is recorded says which scopes were open when the location was entered. -/
  taken : ∀ {location site}, walk.siteAt location = .ok site →
    ∃ before later, calls = before ++ .enter location :: later ∧
      ((start.after types before).call types (.enter location)).1 = .ok (.site site) ∧
      ∀ kind, site.isInside kind ↔
        ∃ scope ∈ (start.after types before).scopes, scope.kind = kind
  /-- The walk has a current site as long as it is somewhere. -/
  nowhere : (∃ e, walk.currentSite = .error e) ↔ walk.path = []
  never_missing : ∀ location, walk.currentSite ≠ .error (.neverEntered location)
  /-- The counter of optional scopes counts the calls that closed one. -/
  counted : walk.optionalsClosed = (start.transcript types calls).countP closedOptional

/-- The current site of an orderly walk is missing only if the walk is nowhere. -/
theorem Orderly.currentSite {walk : Walk} (h : walk.Orderly) :
    ((∃ e, walk.currentSite = .error e) ↔ walk.path = []) ∧
      ∀ location, walk.currentSite ≠ .error (.neverEntered location) := by
  cases hpath : walk.path with
  | nil =>
      have herror : walk.currentSite = .error .nothingEntered ∨
          walk.currentSite = .error .noCurrentLocation := by
        unfold Walk.currentSite current
        simp only [throw_bind, hpath]
        split
        · exact .inl rfl
        · exact .inr rfl
      rcases herror with herror | herror <;> simp [herror]
  | cons location rest =>
      obtain ⟨site, hsite⟩ := h.recorded location (hpath ▸ List.mem_cons_self)
      have hcurrent := currentSite_eq_ok_iff.2 ⟨location, current_eq_ok_iff.2 ⟨rest, hpath⟩, hsite⟩
      simp [hcurrent]

/-- A walk is safe under any calls.  A call that fails changes nothing; no location is on the path
twice, and all of them are recorded; no two scopes of a kind are open; what is recorded at a
location says which scopes were open when it was entered, and never changes. -/
theorem safeAfter_calls (types : TypeTable) (calls : List Call) :
    SafeAfter types calls (start.after types calls) := by
  have horderly : (start.after types calls).Orderly :=
    after_induction Called.orderly orderly_start calls
  constructor
  case agrees => exact call_eq_settled types _
  case failed =>
    intro call e hfailed
    exact (hfailed ▸ called_call types (start.after types calls) call).eq_of_error
  case orderly => exact horderly
  case returned =>
    intro call site hreply
    exact (hreply ▸ called_call types (start.after types calls) call).exists_of_site
  case lasting =>
    intro location site hsite more
    exact after_induction (motive := fun walk => walk.siteAt location = .ok site)
      (fun hcalled hsite => hcalled.siteAt hsite) hsite more
  case taken =>
    intro location site hsite
    obtain ⟨before, later, hcalls, hreply⟩ := exists_entered_of_siteAt hsite
    refine ⟨before, later, hcalls, hreply, fun kind => ?_⟩
    have hentered := (hreply ▸ called_call types (start.after types before) _).enter_eq_ok
    rw [isInside_of_enter hentered, isInside_iff]
  case nowhere => exact horderly.currentSite.1
  case never_missing => exact horderly.currentSite.2
  case counted =>
    rw [optionalsClosed_after]
    exact Nat.zero_add _

-- The optional scope is still open when both locations have been left; the second start is refused.
example :
    let types := TypeTable.empty.register ⟨["Animal"]⟩ "Animal"
    let walk := start.after types
      [.enter ⟨["Animal"]⟩, .openScope .optional, .leave, .leave, .enter ⟨["Animal"]⟩,
        .openScope .fold, .ask .currentSite]
    walk.path = [] ∧ walk.scopes = [⟨.optional, ⟨["Animal"]⟩, 1⟩] ∧
      walk.currentSite = .error .noCurrentLocation := by
  decide

end Walk

end TraversalSql
