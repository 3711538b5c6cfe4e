import TraversalSql.Proofs.Assembly
import TraversalSql.Proofs.Reading

/-!
The scopes of a walk are nested along its path.  Each is left no later than the location at which it
was opened, so as long as a location is on the path the scopes that enclosed it stay open, other
than folds, which may be closed inside.  Hence an optional crossing or a recursion that encloses a
vertex encloses whatever is reached from it.
-/

namespace TraversalSql

open Outcome

/-- Whether a site lies in a scope of a kind. -/
def Site.isInside (site : Site) : ScopeKind → Bool
  | .optional => site.inOptional
  | .fold => site.inFold
  | .recursive => site.inRecursion

namespace Walk

/-- Whether one of some scopes is of a kind and was opened when the path was at most so long. -/
def isOpenAt (scopes : List OpenScope) (kind : ScopeKind) (height : Nat) : Bool :=
  scopes.any fun scope => scope.kind == kind && decide (scope.height ≤ height)

theorem isOpenAt_cons (scope : OpenScope) (scopes : List OpenScope) (kind : ScopeKind)
    (height : Nat) :
    isOpenAt (scope :: scopes) kind height =
      (scope.kind == kind && decide (scope.height ≤ height) || isOpenAt scopes kind height) :=
  rfl

/-- Scopes that are too young or of another kind make no difference. -/
theorem isOpenAt_append_of_forall {younger : List OpenScope} {kind : ScopeKind} {height : Nat}
    (h : ∀ scope ∈ younger, scope.kind ≠ kind ∨ height < scope.height)
    (scopes : List OpenScope) :
    isOpenAt (younger ++ scopes) kind height = isOpenAt scopes kind height := by
  induction younger with
  | nil => rfl
  | cons scope younger ih =>
      obtain ⟨hscope, hyounger⟩ := List.forall_mem_cons.1 h
      rw [List.cons_append, isOpenAt_cons, ih hyounger]
      rcases hscope with hkind | hheight
      · simp [hkind]
      · simp [Nat.not_le.2 hheight]

/-- Where all scopes are old enough, being inside one is having one open. -/
theorem isOpenAt_eq_isInside {walk : Walk} {height : Nat}
    (h : ∀ scope ∈ walk.scopes, scope.height ≤ height) (kind : ScopeKind) :
    isOpenAt walk.scopes kind height = walk.isInside kind := by
  rw [Bool.eq_iff_iff]
  simp only [isOpenAt, isInside, List.any_eq_true, Bool.and_eq_true, decide_eq_true_eq]
  constructor
  · rintro ⟨scope, hscope, hkind, -⟩
    exact ⟨scope, hscope, hkind⟩
  · rintro ⟨scope, hscope, hkind⟩
    exact ⟨scope, hscope, hkind, h scope hscope⟩

/-- Each location of a path belongs to a vertex that was read, whose site says which scopes were
open there.  A fold may be closed before the path is left, so it is left out. -/
def Flagged (read : List Relation) (scopes : List OpenScope) : List Location → Prop
  | [] => True
  | location :: rest =>
      (∃ relation ∈ read, relation.location = location ∧ ∀ kind ≠ ScopeKind.fold,
        relation.site.isInside kind = isOpenAt scopes kind rest.length) ∧
      Flagged read scopes rest

theorem Flagged.congr {read : List Relation} {scopes others : List OpenScope}
    {path : List Location} (h : Flagged read scopes path)
    (hsame : ∀ kind ≠ ScopeKind.fold, ∀ height < path.length,
      isOpenAt others kind height = isOpenAt scopes kind height) :
    Flagged read others path := by
  induction path with
  | nil => exact trivial
  | cons location rest ih =>
      obtain ⟨⟨relation, hrelation, hlocation, hflags⟩, hrest⟩ := h
      rw [List.length_cons] at hsame
      refine ⟨⟨relation, hrelation, hlocation, fun kind hkind => ?_⟩, ?_⟩
      · rw [hflags kind hkind, hsame kind hkind _ (Nat.lt_succ_self _)]
      · exact ih hrest fun kind hkind height hheight =>
          hsame kind hkind height (Nat.lt_succ_of_lt hheight)

theorem Flagged.mono {read more : List Relation} {scopes : List OpenScope} {path : List Location}
    (h : Flagged read scopes path) (hmore : read ⊆ more) : Flagged more scopes path := by
  induction path with
  | nil => exact trivial
  | cons location rest ih =>
      obtain ⟨⟨relation, hrelation, hflags⟩, hrest⟩ := h
      exact ⟨⟨relation, hmore hrelation, hflags⟩, ih hrest⟩

/-- A walk whose open scopes are nested: an inner one was opened on a longer path than an outer one,
all of them on a path shorter than a limit, and the locations of the path are flagged. -/
structure Nested (walk : Walk) (read : List Relation) (limit : Nat) : Prop where
  deeper : walk.scopes.Pairwise fun inner outer => outer.height < inner.height
  lower : ∀ scope ∈ walk.scopes, scope.height < limit
  flagged : Flagged read walk.scopes walk.path

theorem nested_start (read : List Relation) : start.Nested read start.path.length where
  deeper := .nil
  lower := by simp [start]
  flagged := trivial

/-- The site of a location says which scopes are open when it is entered. -/
theorem isInside_of_enter {walk after : Walk} {types : TypeTable} {location : Location}
    {site : Site} (h : walk.enter types location = .ok (site, after)) (kind : ScopeKind) :
    site.isInside kind = walk.isInside kind := by
  obtain ⟨-, _, _, -, -, rfl, -⟩ := enter_eq_ok_iff.1 h
  cases kind <;> rfl

/-- Closing at a height takes the scopes away that were opened there, and those that stay open were
opened on a shorter path. -/
theorem of_closeAtHeight {location : Location} {height closed : Nat}
    {scopes left : List OpenScope} (h : closeAtHeight location height scopes = .ok (left, closed))
    (hdeeper : scopes.Pairwise fun inner outer => outer.height < inner.height)
    (hlower : ∀ scope ∈ scopes, scope.height < height + 1) :
    ∃ shut, scopes = shut ++ left ∧ (∀ scope ∈ shut, scope.height = height) ∧
      ∀ scope ∈ left, scope.height < height := by
  induction scopes generalizing closed with
  | nil =>
      obtain ⟨rfl, -⟩ := Prod.mk.inj (Except.ok.inj h)
      exact ⟨[], rfl, by simp, by simp⟩
  | cons scope rest ih =>
      obtain ⟨houter, hdeeper⟩ := List.pairwise_cons.1 hdeeper
      obtain ⟨hscope, hlower⟩ := List.forall_mem_cons.1 hlower
      by_cases hheight : scope.height = height
      · have hrest : ∃ closed, closeAtHeight location height rest = .ok (left, closed) := by
          simp only [closeAtHeight, hheight, if_true] at h
          split at h
          · obtain ⟨⟨others, count⟩, hothers, h⟩ := bind_eq_ok_iff.1 h
            obtain ⟨rfl, -⟩ := Prod.mk.inj (pure_eq_ok_iff.1 h)
            exact ⟨count, hothers⟩
          · exact ⟨closed, h⟩
          · exact absurd h (by simp)
        obtain ⟨closed, hrest⟩ := hrest
        obtain ⟨shut, rfl, hshut, hleft⟩ := ih hrest hdeeper hlower
        exact ⟨scope :: shut, rfl, List.forall_mem_cons.2 ⟨hheight, hshut⟩, hleft⟩
      · simp only [closeAtHeight, hheight, if_false] at h
        obtain ⟨rfl, -⟩ := Prod.mk.inj (Except.ok.inj h)
        have hlt : scope.height < height := by omega
        refine ⟨[], rfl, by simp, List.forall_mem_cons.2 ⟨hlt, fun other hother => ?_⟩⟩
        exact Nat.lt_trans (houter other hother) hlt

namespace Nested

variable {walk after : Walk} {read : List Relation} {limit : Nat} {types : TypeTable}

theorem weaken {more : Nat} (h : walk.Nested read limit) (hmore : limit ≤ more) :
    walk.Nested read more :=
  ⟨h.deeper, fun scope hscope => Nat.lt_of_lt_of_le (h.lower scope hscope) hmore, h.flagged⟩

theorem leave {location : Location} (h : walk.Nested read walk.path.length)
    (hleave : walk.leave = .ok (location, after)) :
    after.Nested read (after.path.length + 1) := by
  obtain ⟨rest, hpath, rfl⟩ := leave_eq_ok_iff.1 hleave
  have hlower := h.lower
  have hflagged := h.flagged
  rw [hpath] at hlower hflagged
  exact ⟨h.deeper, hlower, hflagged.2⟩

theorem openScope {kind : ScopeKind} (h : walk.Nested read walk.path.length)
    (hopen : walk.openScope kind = .ok after) :
    after.Nested read (after.path.length + 1) := by
  obtain ⟨-, openedAt, -, rfl⟩ := openScope_eq_ok_iff.1 hopen
  refine ⟨List.pairwise_cons.2 ⟨h.lower, h.deeper⟩, List.forall_mem_cons.2
    ⟨Nat.lt_succ_self _, fun scope hscope => Nat.lt_succ_of_lt (h.lower scope hscope)⟩, ?_⟩
  refine h.flagged.congr fun other _ height hheight => ?_
  simp [isOpenAt_cons, Nat.not_le.2 hheight]

/-- The vertex entered is flagged by the scopes that are open. -/
theorem enter {relation : Relation} (h : walk.Nested read (walk.path.length + 1))
    (henter : walk.enter types relation.location = .ok (relation.site, after)) :
    after.Nested (read ++ [relation]) after.path.length := by
  have hflags := isInside_of_enter henter
  obtain ⟨-, _, _, -, -, -, rfl⟩ := enter_eq_ok_iff.1 henter
  refine ⟨h.deeper, h.lower, ⟨relation, by simp, rfl, fun kind _ => ?_⟩,
    h.flagged.mono (List.subset_append_left _ _)⟩
  rw [hflags, isOpenAt_eq_isInside fun scope hscope => Nat.le_of_lt_succ (h.lower scope hscope)]

/-- The scopes stay nested if some of the inner ones are closed: folds, or scopes that were opened
on a path as long as the present one. -/
theorem close {shut : List OpenScope} (h : walk.Nested read limit)
    (hpath : after.path = walk.path) (hscopes : walk.scopes = shut ++ after.scopes)
    (hshut : ∀ scope ∈ shut, scope.kind = .fold ∨ walk.path.length ≤ scope.height)
    (hleft : ∀ scope ∈ after.scopes, scope.height < walk.path.length) :
    after.Nested read after.path.length := by
  have hdeeper := h.deeper
  rw [hscopes] at hdeeper
  refine ⟨(List.pairwise_append.1 hdeeper).2.1, hpath ▸ hleft, ?_⟩
  rw [hpath]
  refine h.flagged.congr fun kind hkind height hheight => ?_
  rw [hscopes, isOpenAt_append_of_forall]
  intro scope hscope
  rcases hshut scope hscope with hfold | hheight'
  · exact .inl (hfold ▸ hkind.symm)
  · exact .inr (Nat.lt_of_lt_of_le hheight hheight')

theorem closeScope (h : walk.Nested read (walk.path.length + 1))
    (hclose : walk.closeScope .fold = .ok after) : after.Nested read after.path.length := by
  obtain ⟨scope, rest, hscopes, hkind, rfl⟩ := closeScope_eq_ok_iff.1 hclose
  have hdeeper := h.deeper
  have hlower := h.lower
  rw [hscopes] at hdeeper hlower
  have hsplit : walk.scopes = [scope] ++ rest := hscopes
  refine h.close rfl hsplit (by simp [hkind]) fun other hother => ?_
  exact Nat.lt_of_lt_of_le ((List.pairwise_cons.1 hdeeper).1 other hother)
    (Nat.le_of_lt_succ (hlower scope List.mem_cons_self))

theorem backtrack {location : Location} {optional : Bool} (h : walk.Nested read walk.path.length)
    (hback : walk.backtrack location optional = .ok after) :
    after.Nested read after.path.length := by
  obtain ⟨gone, rest, scopes, closed, hpath, hclose, -, rfl⟩ := backtrack_eq_ok_iff.1 hback
  have hleft := h.leave (leave_eq_ok_iff.2 ⟨_, hpath, rfl⟩)
  obtain ⟨shut, hscopes, hshut, hlower⟩ := of_closeAtHeight hclose hleft.deeper hleft.lower
  exact hleft.close rfl hscopes (fun scope hscope => .inr (hshut scope hscope).ge) hlower

/-- The scopes that enclose the location at which a walk is are those that are open. -/
theorem exists_current {location : Location} (h : walk.Nested read walk.path.length)
    (hcurrent : walk.current = .ok location) :
    ∃ relation ∈ read, relation.location = location ∧ ∀ kind ≠ ScopeKind.fold,
      relation.site.isInside kind = walk.isInside kind := by
  obtain ⟨rest, hpath⟩ := current_eq_ok_iff.1 hcurrent
  have hflagged := h.flagged
  have hlower := h.lower
  rw [hpath] at hflagged hlower
  obtain ⟨⟨relation, hrelation, hlocation, hflags⟩, -⟩ := hflagged
  refine ⟨relation, hrelation, hlocation, fun kind hkind => ?_⟩
  rw [hflags kind hkind, isOpenAt_eq_isInside fun scope hscope =>
    Nat.le_of_lt_succ (hlower scope hscope)]

end Nested

end Walk

/-- A vertex is reached from another one, one step further and inside the same scopes, folds left
out. -/
def Relation.Continues (above below : Relation) : Prop :=
  below.location.parent? = some above.location ∧
    ∀ kind ≠ ScopeKind.fold, above.site.isInside kind → below.site.isInside kind

namespace Query

/-- One instruction keeps the scopes nested, and a vertex that it enters continues the one at which
the walk is. -/
theorem Moves.nested {types : TypeTable} {walk after : Walk} {blocks : List Block}
    {read : List Relation} (h : Moves types walk blocks after)
    (hwalk : walk.Nested read walk.path.length) :
    after.Nested (read ++ blocks.filterMap Block.relation?) after.path.length ∧
      ∀ relation ∈ blocks.filterMap Block.relation?,
        relation.kind = .root ∨ ∃ above ∈ read, above.Continues relation := by
  cases h with
  | stay hblocks =>
      rw [hblocks, List.append_nil]
      exact ⟨hwalk, by simp⟩
  | @start relation _ hroot henter =>
      exact ⟨(hwalk.weaken (Nat.le_succ _)).enter henter, by simp [Block.relation?, hroot]⟩
  | @cross _ relation current opened _ hblocks hcurrent hparent hopened henter =>
      obtain ⟨above, habove, hlocation, hflags⟩ := hwalk.exists_current hcurrent
      have hkept : opened.Nested read (opened.path.length + 1) ∧
          ∀ kind, walk.isInside kind → opened.isInside kind := by
        rcases hopened with rfl | ⟨kind, hopen⟩
        · exact ⟨hwalk.weaken (Nat.le_succ _), fun _ h => h⟩
        · refine ⟨hwalk.openScope hopen, fun other hinside => ?_⟩
          obtain ⟨-, openedAt, -, rfl⟩ := Walk.openScope_eq_ok_iff.1 hopen
          rw [Walk.isInside, List.any_cons, Bool.or_eq_true]
          exact .inr hinside
      rw [hblocks]
      refine ⟨hkept.1.enter henter, fun below hbelow => .inr ⟨above, habove, ?_, ?_⟩⟩
      · rw [List.mem_singleton.1 hbelow, hlocation]
        exact hparent
      · intro kind hkind hinside
        rw [List.mem_singleton.1 hbelow, Walk.isInside_of_enter henter]
        exact hkept.2 kind (hflags kind hkind ▸ hinside)
  | unfold hleave hclose =>
      rw [List.filterMap_nil, List.append_nil]
      exact ⟨(hwalk.leave hleave).closeScope hclose, by simp⟩
  | backtrack hback =>
      rw [List.filterMap_nil, List.append_nil]
      exact ⟨hwalk.backtrack hback, by simp⟩

/-- Every vertex that is read, other than one that starts a query, continues another one. -/
theorem continues_of_readFrom {types : TypeTable} {index : Nat} {walk after : Walk}
    {instructions : List Instruction} {read : Blocks} {earlier : List Relation}
    (hrecorded : walk.Recorded types) (hwalk : walk.Nested earlier walk.path.length)
    (h : readFrom types index walk instructions = .ok (read, after)) :
    ∀ relation ∈ read.relations, relation.kind = .root ∨
      ∃ above ∈ earlier ++ read.relations, above.Continues relation := by
  refine readFrom_induction (motive := fun walk _ read _ => ∀ earlier, walk.Recorded types →
    walk.Nested earlier walk.path.length → ∀ relation ∈ read.relations, relation.kind = .root ∨
      ∃ above ∈ earlier ++ read.relations, above.Continues relation)
    ?nil ?result ?cons h earlier hrecorded hwalk
  case nil => simp [Blocks.relations]
  case result => simp [Blocks.relations]
  case cons =>
    intro index walk between after instruction rest blocks read hfirst ih earlier hrecorded hwalk
    have hmoves := (readAs_of_readInstruction hrecorded hfirst).2
    obtain ⟨hbetween, hhere⟩ := hmoves.nested hwalk
    have hlater := ih _ (hmoves.recorded hrecorded) hbetween
    simp only [Blocks.relations, List.filterMap_append] at hlater ⊢
    intro relation hrelation
    rcases List.mem_append.1 hrelation with hrelation | hrelation
    · refine (hhere relation hrelation).imp_right ?_
      rintro ⟨above, habove, hcontinues⟩
      exact ⟨above, List.mem_append_left _ habove, hcontinues⟩
    · rw [← List.append_assoc]
      exact hlater relation hrelation

end Query

/-- A node that hangs below another one does not start a query, and the vertex one step back from
it is that of the other one. -/
theorem Planted.relation_eq_of_parent {read : Blocks} (h : Planted read.relations)
    {above below : Node} (habove : above ∈ read.tree.nodes) (hbelow : below ∈ read.tree.nodes)
    (hparent : below.parent = some above.id) :
    below.relation.kind ≠ .root ∧ ∀ owner ∈ read.relations,
      below.relation.location.parent? = some owner.location → owner = above.relation := by
  obtain ⟨place, hplace, rfl⟩ := List.mem_mapIdx.1 habove
  obtain ⟨lower, hlower, rfl⟩ := List.mem_mapIdx.1 hbelow
  have hparent : parentPlace read.relations lower = some place := hparent
  have hne : lower ≠ 0 := by
    rintro rfl
    simp [parentPlace] at hparent
  have hget := List.getElem?_eq_getElem hlower
  refine ⟨(h.exists_above hne hget).1, fun owner howner hback => ?_⟩
  rw [parentPlace_of_parent? hne hget hback] at hparent
  obtain ⟨found, hfound, hlocation⟩ := placeAmong_eq_some hparent
  rw [List.getElem?_eq_getElem hplace, Option.some.injEq] at hfound
  subst hfound
  exact (List.inj_on_of_nodup_map h.distinct (List.getElem_mem hplace) howner hlocation).symm

theorem mem_relations_of_mem_tree {read : Blocks} {node : Node} (h : node ∈ read.tree.nodes) :
    node.relation ∈ read.relations := by
  obtain ⟨place, hplace, rfl⟩ := List.mem_mapIdx.1 h
  exact List.getElem_mem hplace

/-- Where a node of the tree of a query hangs below another one, the scopes that enclose the upper
one enclose the lower one, folds left out. -/
theorem Query.isInside_of_parent {query : Query} {read : Blocks} {tree : QueryTree}
    (hread : query.blocks = .ok read) (htree : QueryTree.ofBlocks read = .ok tree)
    {above below : Node} (habove : above ∈ tree.nodes) (hbelow : below ∈ tree.nodes)
    (hparent : below.parent = some above.id) {kind : ScopeKind} (hkind : kind ≠ .fold)
    (hinside : above.relation.site.isInside kind) : below.relation.site.isInside kind := by
  obtain ⟨hassemblable, rfl⟩ := ofBlocks_eq_ok_iff.1 htree
  have hcontinues : ∀ relation ∈ read.relations, relation.kind = .root ∨
      ∃ above ∈ read.relations, above.Continues relation := by
    obtain ⟨-, walk, hfound⟩ := exists_readFrom_of_blocks hread
    simpa using continues_of_readFrom (Walk.recorded_start _) (Walk.nested_start []) hfound
  obtain ⟨hroot, howner⟩ := hassemblable.planted.relation_eq_of_parent habove hbelow hparent
  obtain ⟨owner, hmem, hback, hflags⟩ :=
    (hcontinues _ (mem_relations_of_mem_tree hbelow)).resolve_left hroot
  obtain rfl := howner owner hmem hback
  exact hflags kind hkind hinside

end TraversalSql
