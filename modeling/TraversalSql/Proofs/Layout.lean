import TraversalSql.Emission
import TraversalSql.Proofs.Binding

/-!
What an emission that succeeds consists of.  Each function of the emission has one lemma that says
what it took from the supply and what it made of it; the recursion over scopes is packaged once, as
an induction principle for emitted scopes.
-/

namespace TraversalSql

open Outcome

/-- Things that are made one after the other, each from its own source, with the supply before and
after. -/
inductive Steps {α β : Type} (made : α → β → Sql.AliasSupply → Sql.AliasSupply → Prop) :
    List α → List β → Sql.AliasSupply → Sql.AliasSupply → Prop
  | nil (supply : Sql.AliasSupply) : Steps made [] [] supply supply
  | cons {a : α} {b : β} {as : List α} {bs : List β} {supply later last : Sql.AliasSupply}
      (hfirst : made a b supply later) (hrest : Steps made as bs later last) :
      Steps made (a :: as) (b :: bs) supply last

namespace Emit

variable {supply later : Sql.AliasSupply}

theorem takeCte_eq_ok_iff {kind : Sql.CteKind} {name : String} :
    takeCte kind supply = .ok (name, later) ↔
      name = (supply.nextCte kind).1 ∧ later = (supply.nextCte kind).2 := by
  simp [takeCte, Prod.ext_iff, eq_comm]

theorem takeLink_eq_ok_iff {name : String} :
    takeLink supply = .ok (name, later) ↔
      name = supply.nextLink.1 ∧ later = supply.nextLink.2 := by
  simp [takeLink, Prod.ext_iff, eq_comm]

theorem takeFoldLink_eq_ok_iff {name : String} :
    takeFoldLink supply = .ok (name, later) ↔
      name = supply.nextFoldLink.1 ∧ later = supply.nextFoldLink.2 := by
  simp [takeFoldLink, Prod.ext_iff, eq_comm]

end Emit

/-- What a fold comes to, from the joins that lead to its top vertex and the members of its
group. -/
def foldQuery (target : Target) (name link : String) (first : JoinHop) (rest : List JoinHop)
    (members : Members) (filters : List Sql.Expr) (outputs : List (NodeOutput × Sql.Expr)) :
    FoldQuery where
  cte := .ofSelect name {
    distinct := false
    items := ⟨first.inner, some link⟩ :: outputs.map fun (output, column) =>
      ⟨target.foldAggregate column, some output.aliasName⟩
    source := ⟨first.table, rest.map (JoinHop.join · .inner) ++ members.joins⟩
    filters
    groupBy := [first.inner] }
  join := ⟨.left, .cte name none, [.equals first.outer (.column name link)]⟩
  columns := outputs.map fun (output, _) => .ofOutput output (.column name output.aliasName)
  bound := members.bound

def FoldMade (target : Target) (owner : Member) (fold : Group) (query : FoldQuery)
    (supply later : Sql.AliasSupply) : Prop :=
  ∃ traversal table first rest members filters outputs joined bound,
    fold.node.relation.edge = some traversal ∧
    target.schema.tableOf fold.node.typeName = .ok table ∧
    JoinPath target.schema owner.vertex ⟨fold.node.typeName, (supply.nextAlias table.name).1⟩
      traversal (supply.nextAlias table.name).2 (first :: rest) joined ∧
    bindGroup target fold.node true fold (supply.nextAlias table.name).1 joined =
      .ok (members, bound) ∧
    members.filters target.schema fold.node = .ok filters ∧
    members.outputs target.schema = .ok outputs ∧
    query = foldQuery target (bound.nextCte .fold).1 (bound.nextCte .fold).2.nextFoldLink.1
      first rest members filters outputs ∧
    later = (bound.nextCte .fold).2.nextFoldLink.2

theorem foldMade_of_emitFold {target : Target} {owner : Member} {fold : Group} {query : FoldQuery}
    {supply later : Sql.AliasSupply}
    (h : emitFold target owner fold supply = .ok (query, later)) :
    FoldMade target owner fold query supply later := by
  unfold emitFold foldPath at h
  cases hedge : fold.node.relation.edge with
  | none => simp [hedge, Emit.bind_eq_ok_iff, Emit.throw_eq_ok_iff] at h
  | some traversal =>
      simp only [hedge, Emit.bind_eq_ok_iff, Emit.lift_eq_ok_iff, Emit.ofSchema_eq_ok_iff,
        Emit.takeAlias_eq_ok_iff, Emit.pure_eq_ok_iff, joinPath_eq_ok_iff] at h
      obtain ⟨path, joined, ⟨table, _, ⟨htable, rfl⟩, aliasName, _, ⟨rfl, rfl⟩, hops, _, hpath, rfl,
        rfl⟩, hrest⟩ := h
      cases hops with
      | nil => simp [Emit.throw_eq_ok_iff] at hrest
      | cons first rest =>
          simp only [Emit.bind_eq_ok_iff, Emit.lift_eq_ok_iff, Emit.takeCte_eq_ok_iff,
            Emit.takeFoldLink_eq_ok_iff, Emit.pure_eq_ok_iff] at hrest
          obtain ⟨members, bound, hmembers, filters, _, ⟨hfilters, rfl⟩, name, _, ⟨rfl, rfl⟩, link,
            _, ⟨rfl, rfl⟩, outputs, _, ⟨houtputs, rfl⟩, rfl, rfl⟩ := hrest
          exact ⟨traversal, table, first, rest, members, filters, outputs, _, bound, hedge, htable,
            hpath, hmembers, hfilters, houtputs, rfl, rfl⟩

/-- The folds of a scope are emitted one after the other, each for the member it hangs off. -/
theorem foldsMade_of_emitFolds {target : Target} {members : Members} {folds : List Group}
    {queries : List FoldQuery} {supply later : Sql.AliasSupply}
    (h : emitFolds target members folds supply = .ok (queries, later)) :
    Steps (fun fold query supply later => ∃ owner, members.owner fold.node = .ok owner ∧
      FoldMade target owner fold query supply later) folds queries supply later := by
  induction folds generalizing queries supply with
  | nil =>
      simp only [emitFolds, Emit.pure_eq_ok_iff] at h
      obtain ⟨rfl, rfl⟩ := h
      exact .nil _
  | cons fold folds ih =>
      simp only [emitFolds, Emit.bind_eq_ok_iff, Emit.lift_eq_ok_iff, Emit.pure_eq_ok_iff] at h
      obtain ⟨owner, _, ⟨howner, rfl⟩, first, between, hfirst, rest, _, hrest, rfl, rfl⟩ := h
      exact .cons ⟨owner, howner, foldMade_of_emitFold hfirst⟩ (ih hrest)

/-- What a scope without its recursions comes to. -/
def baseEmission (entry : Option RecursionEntry) (start : Sql.FromClause) (members : Members)
    (outputs : List (NodeOutput × Sql.Expr)) (folded : List FoldQuery) (filters : List Sql.Expr) :
    ScopeEmission where
  ctes := folded.map FoldQuery.cte
  query := {
    source := ⟨start.base, start.joins ++ members.joins ++ folded.map FoldQuery.join⟩
    filters
    columns := entryColumns entry
      ++ outputs.map (fun (output, column) => .ofOutput output column)
      ++ folded.flatMap FoldQuery.columns }
  bound := members.bound ++ folded.flatMap FoldQuery.bound

section

variable {entry : Option RecursionEntry} {start : Sql.FromClause} {members : Members}
  {outputs : List (NodeOutput × Sql.Expr)} {folded : List FoldQuery} {filters : List Sql.Expr}

/-- A scope without its recursions exposes its link to the scope above it, and the outputs of its
members and of its folds. -/
theorem mem_columns_baseEmission_iff {c : ScopeColumn} :
    c ∈ (baseEmission entry start members outputs folded filters).query.columns ↔
      c ∈ entryColumns entry ∨ (∃ output ∈ outputs, c = .ofOutput output.1 output.2) ∨
        ∃ query ∈ folded, c ∈ query.columns := by
  simp only [baseEmission, List.mem_append, List.mem_map, List.mem_flatMap, or_assoc,
    @eq_comm ScopeColumn _ c]

/-- A scope without its recursions joins what it starts from, its members and its folds. -/
theorem mem_joins_baseEmission_iff {join : Sql.Join} :
    join ∈ (baseEmission entry start members outputs folded filters).query.source.joins ↔
      join ∈ start.joins ∨ join ∈ members.joins ∨ ∃ query ∈ folded, join = query.join := by
  simp only [baseEmission, List.mem_append, List.mem_map, or_assoc, @eq_comm Sql.Join _ join]

end

def BaseMade (target : Target) (entry : Option RecursionEntry) (group : Group)
    (folds : List Group) (members : Members) (emission : ScopeEmission)
    (supply later : Sql.AliasSupply) : Prop :=
  ∃ table start outputs folded filters bound,
    target.schema.tableOf group.node.typeName = .ok table ∧
    scopeSource entry table (supply.nextAlias table.name).1 = .ok start ∧
    bindGroup target group.node false group (supply.nextAlias table.name).1
      (supply.nextAlias table.name).2 = .ok (members, bound) ∧
    members.outputs target.schema = .ok outputs ∧
    Steps (fun fold query supply later => ∃ owner, members.owner fold.node = .ok owner ∧
      FoldMade target owner fold query supply later) folds folded bound later ∧
    members.filters target.schema group.node = .ok filters ∧
    emission = baseEmission entry start members outputs folded filters

theorem baseMade_of_emitBase {target : Target} {entry : Option RecursionEntry} {group : Group}
    {folds : List Group} {members : Members} {emission : ScopeEmission}
    {supply later : Sql.AliasSupply}
    (h : emitBase target entry group folds supply = .ok ((members, emission), later)) :
    BaseMade target entry group folds members emission supply later := by
  simp only [emitBase, Emit.bind_eq_ok_iff, Emit.lift_eq_ok_iff, Emit.ofSchema_eq_ok_iff,
    Emit.takeAlias_eq_ok_iff, Emit.pure_eq_ok_iff, Prod.mk.injEq] at h
  obtain ⟨table, _, ⟨htable, rfl⟩, aliasName, _, ⟨rfl, rfl⟩, start, _, ⟨hstart, rfl⟩, bound,
    between, hbound, outputs, _, ⟨houtputs, rfl⟩, folded, _, hfolded, filters, _, ⟨hfilters, rfl⟩,
    ⟨rfl, rfl⟩, rfl⟩ := h
  exact ⟨table, start, outputs, folded, filters, between, htable, hstart, hbound, houtputs,
    foldsMade_of_emitFolds hfolded, hfilters, rfl⟩

/-- The link column of a recursion: the key of the vertex that owns it. -/
def LinkMade (target : Target) (members : Members) (recursion : Scope) (column : ScopeColumn)
    (supply later : Sql.AliasSupply) : Prop :=
  ∃ owner table key, members.owner recursion.node = .ok owner ∧
    (owner.node.linkFor? recursion.node.id).isSome ∧
    target.schema.tableOf owner.node.typeName = .ok table ∧ table.keyColumn = .ok key ∧
    column = .link (.column owner.aliasName key) supply.nextLink.1 ∧ later = supply.nextLink.2

theorem linksMade_of_emitLinks {target : Target} {members : Members} {recursions : List Scope}
    {columns : List ScopeColumn} {supply later : Sql.AliasSupply}
    (h : emitLinks target members recursions supply = .ok (columns, later)) :
    Steps (LinkMade target members) recursions columns supply later := by
  induction recursions generalizing columns supply with
  | nil =>
      simp only [emitLinks, Emit.pure_eq_ok_iff] at h
      obtain ⟨rfl, rfl⟩ := h
      exact .nil _
  | cons recursion recursions ih =>
      simp only [emitLinks, emitLink, Emit.bind_eq_ok_iff, Emit.lift_eq_ok_iff,
        Emit.pure_eq_ok_iff] at h
      obtain ⟨first, between, ⟨owner, _, ⟨howner, rfl⟩, hlink⟩, rest, _, hrest, rfl, rfl⟩ := h
      refine .cons ?_ (ih hrest)
      split at hlink
      · simp [Emit.bind_eq_ok_iff, Emit.throw_eq_ok_iff] at hlink
      · next hsome =>
        simp only [Emit.bind_eq_ok_iff, Emit.lift_eq_ok_iff, Emit.ofSchema_eq_ok_iff,
          Emit.takeLink_eq_ok_iff, Emit.pure_eq_ok_iff] at hlink
        obtain ⟨table, _, ⟨htable, rfl⟩, key, _, ⟨hkey, rfl⟩, name, _, ⟨rfl, rfl⟩, rfl, rfl⟩ :=
          hlink
        have hsome : (owner.node.linkFor? recursion.node.id).isSome :=
          Option.isSome_iff_ne_none.2 (by simpa using hsome)
        exact ⟨owner, table, key, howner, hsome, htable, hkey, rfl, rfl⟩

namespace Recursion

/-- A recursion that is asked for properly stays on the type that is declared one level up. -/
theorem exists_of_ofRelation {target : Target} {relation : Relation} {name source link : String}
    {walk : Recursion} (h : ofRelation target relation name source link = .ok walk) :
    ∃ depth traversal, relation.recursionDepth? = some depth ∧ relation.edge = some traversal ∧
      relation.site.outerType.getD "" = relation.site.currentType ∧
      walk = ⟨name, relation.site.location, relation.site.currentType, traversal, depth, source,
        link⟩ := by
  unfold ofRelation at h
  cases hdepth : relation.recursionDepth? with
  | none => simp [hdepth, throw_eq_ok_iff] at h
  | some depth =>
      cases hedge : relation.edge with
      | none => simp [hdepth, hedge, throw_eq_ok_iff] at h
      | some traversal =>
          simp only [hdepth, hedge, throw_bind] at h
          split at h
          · simp [throw_eq_ok_iff] at h
          split at h
          · simp [throw_eq_ok_iff] at h
          split at h
          · simp [throw_eq_ok_iff] at h
          next hsame =>
          obtain rfl := pure_eq_ok_iff.1 h
          exact ⟨depth, traversal, rfl, rfl, by simpa using hsame, rfl⟩

/-- The recursion of a vertex keeps the names that it is given. -/
theorem name_of_ofRelation {target : Target} {relation : Relation} {name source link : String}
    {walk : Recursion} (h : ofRelation target relation name source link = .ok walk) :
    walk.name = name ∧ walk.source = source ∧ walk.link = link := by
  obtain ⟨depth, traversal, -, -, -, rfl⟩ := exists_of_ofRelation h
  exact ⟨rfl, rfl, rfl⟩

/-- A step leads from where the walk is to a vertex under a new alias. -/
def stepSelect (recursion : Recursion) (joins : List Sql.Join) (next key : String) :
    Sql.Select where
  distinct := false
  items := recursion.stepItems (.column next key)
  source := ⟨.cte recursion.name none, joins⟩
  filters := recursion.stepFilters (.column next key)
  groupBy := []

/-- A step that was emitted: the edge leaves from the key reached, or from the row of the vertex
reached, which is joined first. -/
inductive StepMade (recursion : Recursion) (target : Target) :
    Sql.Select → Sql.AliasSupply → Sql.AliasSupply → Prop
  | fromKey {table : Table} {key : String} {joined : List JoinHop}
      {supply later : Sql.AliasSupply}
      (htable : target.schema.tableOf recursion.vertexType = .ok table)
      (hkey : table.keyColumn = .ok key)
      (hpath : JoinPath target.schema ⟨recursion.vertexType, recursion.name⟩
        ⟨recursion.vertexType, (supply.nextAlias table.name).1⟩ recursion.traversal
        (supply.nextAlias table.name).2 joined later)
      (hleaves : ∀ hop ∈ joined.head?, hop.outerColumn = key) :
      StepMade recursion target
        (recursion.stepSelect (joinsFromKey (recursion.column Sql.reachedColumn) joined)
          (supply.nextAlias table.name).1 key) supply later
  | fromRow {table : Table} {key : String} {joined : List JoinHop}
      {supply started later : Sql.AliasSupply} {current : String}
      (htable : target.schema.tableOf recursion.vertexType = .ok table)
      (hkey : table.keyColumn = .ok key)
      (hcurrent : supply.nextAlias table.name = (current, started))
      (hpath : JoinPath target.schema ⟨recursion.vertexType, current⟩
        ⟨recursion.vertexType, (started.nextAlias table.name).1⟩ recursion.traversal
        (started.nextAlias table.name).2 joined later) :
      StepMade recursion target
        (recursion.stepSelect
          (⟨.inner, table.reference current,
              [.equals (.column current key) (recursion.column Sql.reachedColumn)]⟩ ::
            joined.map (JoinHop.join · .inner))
          (started.nextAlias table.name).1 key) supply later

theorem stepMade_of_step {recursion : Recursion} {target : Target} {select : Sql.Select}
    {supply later : Sql.AliasSupply}
    (h : recursion.step target supply = .ok (select, later)) :
    recursion.StepMade target select supply later := by
  simp only [step, Emit.bind_eq_ok_iff, Emit.lift_eq_ok_iff, Emit.ofSchema_eq_ok_iff] at h
  obtain ⟨table, _, ⟨htable, rfl⟩, key, _, ⟨hkey, rfl⟩, hops, _, ⟨hhops, rfl⟩, hstep⟩ := h
  split at hstep
  · next hleaves =>
    simp only [Emit.bind_eq_ok_iff, Emit.takeAlias_eq_ok_iff, Emit.pure_eq_ok_iff,
      joinPath_eq_ok_iff] at hstep
    obtain ⟨_, _, ⟨_, _, ⟨rfl, rfl⟩, joined, _, hpath, rfl, rfl⟩, _, _, ⟨rfl, rfl⟩, rfl, rfl⟩ :=
      hstep
    refine .fromKey htable hkey hpath ?_
    -- The first join compares the column of the first hop.
    cases hpath with
    | direct hcrossed _ | junction hcrossed _ _ =>
        obtain rfl := Except.ok.inj (hhops.symm.trans hcrossed)
        simpa using hleaves
  · simp only [Emit.bind_eq_ok_iff, Emit.takeAlias_eq_ok_iff, Emit.pure_eq_ok_iff,
      joinPath_eq_ok_iff] at hstep
    obtain ⟨_, _, ⟨rfl, rfl⟩, _, _, ⟨_, _, ⟨rfl, rfl⟩, joined, _, hpath, rfl, rfl⟩, _, _,
      ⟨rfl, rfl⟩, rfl, rfl⟩ := hstep
    exact .fromRow htable hkey rfl hpath

end Recursion

/-- The recursive table of a recursion, fed from a link column of the scope of its owner. -/
def TableMade (target : Target) (scopeCte link : String) (recursion : Node) (table : Sql.Cte)
    (entry : RecursionEntry) (supply later : Sql.AliasSupply) : Prop :=
  ∃ walk step combinator,
    Recursion.ofRelation target recursion.relation (supply.nextCte .recursion).1 scopeCte link =
      .ok walk ∧
    walk.StepMade target step (supply.nextCte .recursion).2 later ∧
    Recursion.combinator target = .ok combinator ∧
    table = ⟨walk.name, .recursive walk.anchor step combinator, true⟩ ∧
    entry = ⟨(supply.nextCte .recursion).1, link⟩

theorem tableMade_of_emitRecursion {target : Target} {scopeCte link : String} {recursion : Node}
    {made : Sql.Cte × RecursionEntry} {supply later : Sql.AliasSupply}
    (h : emitRecursion target scopeCte recursion link supply = .ok (made, later)) :
    TableMade target scopeCte link recursion made.1 made.2 supply later := by
  simp only [emitRecursion, Recursion.cte, Emit.bind_eq_ok_iff, Emit.lift_eq_ok_iff,
    Emit.takeCte_eq_ok_iff, Emit.pure_eq_ok_iff] at h
  obtain ⟨name, _, ⟨rfl, rfl⟩, walk, _, ⟨hwalk, rfl⟩, table, _,
    ⟨step, _, hstep, combinator, _, ⟨hcombinator, rfl⟩, rfl, rfl⟩, rfl, rfl⟩ := h
  exact ⟨walk, step, combinator, hwalk, Recursion.stepMade_of_step hstep, hcombinator, rfl, rfl⟩

/-- An attached recursion brings its recursive table, the tables that its scope needs, and the one
that its scope becomes. -/
theorem mem_ctes_attach_iff {scopeRoot recursion : Node} {scopeCte link name : String}
    {table cte : Sql.Cte} {emission : ScopeEmission} :
    cte ∈ (attach scopeRoot scopeCte recursion link table name emission).ctes ↔
      cte = table ∨ cte ∈ emission.ctes ∨ cte = .ofSelect name emission.query.select := by
  simp only [attach, List.cons_append, List.mem_cons, List.mem_append, List.not_mem_nil, or_false]

/-- A recursion that was attached to the scope of its owner, when its own scope was emitted in a
given way. -/
def AttachedMade (target : Target)
    (emitted : Scope → Option RecursionEntry → ScopeEmission → Sql.AliasSupply →
      Sql.AliasSupply → Prop)
    (scopeRoot : Node) (scopeCte : String) (source : Scope × String) (attached : AttachedRecursion)
    (supply later : Sql.AliasSupply) : Prop :=
  ∃ table entry emission walked bound,
    TableMade target scopeCte source.2 source.1.node table entry supply walked ∧
    emitted source.1 (some entry) emission walked bound ∧
    attached = attach scopeRoot scopeCte source.1.node source.2 table (bound.nextCte .scope).1
      emission ∧
    later = (bound.nextCte .scope).2

/-- What a scope with its recursions comes to. -/
def wrappedEmission (entry : Option RecursionEntry) (base : ScopeEmission)
    (links : List ScopeColumn) (scopeCte : String) (attached : List AttachedRecursion) :
    ScopeEmission where
  ctes := base.ctes
    ++ [.ofSelect scopeCte { base.query with columns := base.query.columns ++ links }.select]
    ++ attached.flatMap AttachedRecursion.ctes
  query := {
    source := ⟨.cte scopeCte none, attached.map AttachedRecursion.join⟩
    filters := []
    columns := (kept entry (base.query.columns ++ links)).map (·.readFrom scopeCte)
      ++ attached.flatMap AttachedRecursion.columns }
  bound := base.bound ++ attached.flatMap AttachedRecursion.bound

section

variable {entry : Option RecursionEntry} {base : ScopeEmission} {links : List ScopeColumn}
  {scopeCte : String} {attached : List AttachedRecursion}

/-- A scope with its recursions needs the tables of its base, the one that its base becomes, and
those of its recursions. -/
theorem mem_ctes_wrappedEmission_iff {cte : Sql.Cte} :
    cte ∈ (wrappedEmission entry base links scopeCte attached).ctes ↔
      cte ∈ base.ctes ∨
        cte = .ofSelect scopeCte { base.query with columns := base.query.columns ++ links }.select ∨
        ∃ recursion ∈ attached, cte ∈ recursion.ctes := by
  simp only [wrappedEmission, List.mem_append, List.mem_singleton, List.mem_flatMap, or_assoc]

/-- A scope with its recursions exposes what is kept of its base, and the outputs of its
recursions. -/
theorem mem_columns_wrappedEmission_iff {c : ScopeColumn} :
    c ∈ (wrappedEmission entry base links scopeCte attached).query.columns ↔
      (∃ column ∈ kept entry (base.query.columns ++ links), c = column.readFrom scopeCte) ∨
        ∃ recursion ∈ attached, c ∈ recursion.columns := by
  simp only [wrappedEmission, List.mem_append, List.mem_map, List.mem_flatMap,
    @eq_comm ScopeColumn _ c]

end

section

variable {target : Target}
  {motive : Scope → Option RecursionEntry → ScopeEmission → Sql.AliasSupply →
    Sql.AliasSupply → Prop}
  (plain : ∀ {group : Group} {folds : List Group} {entry : Option RecursionEntry}
    {members : Members} {base : ScopeEmission} {supply later : Sql.AliasSupply},
    BaseMade target entry group folds members base supply later →
      motive (.mk group folds []) entry base supply later)
  (wrapped : ∀ {group : Group} {folds : List Group} {recursions : List Scope}
    {entry : Option RecursionEntry} {members : Members} {base : ScopeEmission}
    {links : List ScopeColumn} {attached : List AttachedRecursion}
    {supply based linked later : Sql.AliasSupply}, recursions ≠ [] →
    BaseMade target entry group folds members base supply based →
    Steps (LinkMade target members) recursions links based linked →
    Steps (AttachedMade target motive group.node (linked.nextCte .scope).1)
      (recursions.zip (links.map ScopeColumn.aliasName)) attached (linked.nextCte .scope).2 later →
      motive (.mk group folds recursions) entry
        (wrappedEmission entry base links (linked.nextCte .scope).1 attached) supply later)
include plain wrapped

set_option linter.unusedSectionVars false in
mutual

/-- What holds of every base, and of a scope whenever it holds of the scopes of its recursions,
holds of every emitted scope. -/
theorem emitScope_induction (scope : Scope) {entry : Option RecursionEntry}
    {emission : ScopeEmission} {supply later : Sql.AliasSupply}
    (h : emitScope target scope entry supply = .ok (emission, later)) :
    motive scope entry emission supply later := by
  match scope with
  | .mk group folds recursions =>
      simp only [emitScope, Emit.bind_eq_ok_iff] at h
      obtain ⟨⟨members, base⟩, based, hbase, links, linked, hlinks, hrest⟩ := h
      have hbase := baseMade_of_emitBase hbase
      have hlinks := linksMade_of_emitLinks hlinks
      by_cases hempty : recursions = []
      · subst hempty
        simp only [List.isEmpty_nil, if_true, Emit.pure_eq_ok_iff] at hrest
        obtain ⟨rfl, rfl⟩ := hrest
        cases hlinks
        exact plain hbase
      · rw [if_neg (by simpa using hempty)] at hrest
        simp only [Emit.bind_eq_ok_iff, Emit.takeCte_eq_ok_iff, Emit.pure_eq_ok_iff] at hrest
        obtain ⟨name, _, ⟨rfl, rfl⟩, attached, _, hattached, rfl, rfl⟩ := hrest
        exact wrapped hempty hbase hlinks (emitRecursions_induction recursions hattached)

/-- The recursions of a scope are attached one after the other. -/
theorem emitRecursions_induction (recursions : List Scope) {scopeRoot : Node} {scopeCte : String}
    {links : List String} {attached : List AttachedRecursion} {supply later : Sql.AliasSupply}
    (h : emitRecursions target scopeRoot scopeCte recursions links supply = .ok (attached, later)) :
    Steps (AttachedMade target motive scopeRoot scopeCte) (recursions.zip links) attached supply
      later := by
  match recursions, links with
  | [], links =>
      simp only [emitRecursions, Emit.pure_eq_ok_iff] at h
      obtain ⟨rfl, rfl⟩ := h
      exact .nil _
  | recursion :: recursions, [] =>
      simp only [emitRecursions, Emit.pure_eq_ok_iff] at h
      obtain ⟨rfl, rfl⟩ := h
      exact .nil _
  | recursion :: recursions, link :: links =>
      simp only [emitRecursions, Emit.bind_eq_ok_iff, Emit.takeCte_eq_ok_iff,
        Emit.pure_eq_ok_iff] at h
      obtain ⟨⟨table, entry⟩, walked, htable, emission, bound, hemission, name, _, ⟨rfl, rfl⟩, rest,
        _, hrest, rfl, rfl⟩ := h
      have htable := tableMade_of_emitRecursion htable
      exact .cons ⟨table, entry, emission, walked, bound, htable,
        emitScope_induction recursion hemission, rfl, rfl⟩
        (emitRecursions_induction recursions hrest)

end

end

namespace QueryTree

/-- The emission of a tree is that of the scope of its root, with the outputs in order. -/
theorem exists_of_emission_eq_ok {tree : QueryTree} {target : Target} {emission : ScopeEmission}
    (h : tree.emission target = .ok emission) :
    ∃ root made later, tree.rootScope? = some root ∧
      emitScope target root none .fresh = .ok (made, later) ∧
      tree.isComplete (sortedOutputs made.query.columns) = true ∧
      emission =
        { made with query := { made.query with columns := sortedOutputs made.query.columns } } := by
  unfold QueryTree.emission at h
  simp only [throw_bind] at h
  split at h
  · simp [throw_eq_ok_iff] at h
  · cases hroot : tree.rootScope? with
    | none => simp [hroot, throw_eq_ok_iff] at h
    | some root =>
        simp only [hroot, bind_eq_ok_iff] at h
        obtain ⟨⟨made, later⟩, hmade, h⟩ := h
        split at h
        · simp [throw_eq_ok_iff] at h
        · next hcomplete =>
          refine ⟨root, made, later, rfl, hmade, by simpa using hcomplete, ?_⟩
          exact (pure_eq_ok_iff.1 h).symm

theorem exists_of_statement_eq_ok {tree : QueryTree} {target : Target} {statement : Sql.Statement}
    (h : tree.statement target = .ok statement) :
    ∃ emission, tree.emission target = .ok emission ∧ statement.ctes = emission.ctes ∧
      statement.body = emission.query.select := by
  unfold QueryTree.statement at h
  obtain ⟨emission, hemission, h⟩ := bind_eq_ok_iff.1 h
  obtain rfl := pure_eq_ok_iff.1 h
  exact ⟨emission, hemission, rfl, rfl⟩

theorem mem_sortedOutputs_iff {columns : List ScopeColumn} {column : ScopeColumn} :
    column ∈ sortedOutputs columns ↔ column ∈ columns ∧ column.isOutput := by
  rw [sortedOutputs, (List.mergeSort_perm _ _).mem_iff, List.mem_filter]

/-- Columns whose indices are those of the outputs of a query stand for the outputs, one by one. -/
theorem forall₂_of_isComplete {tree : QueryTree} {columns : List ScopeColumn}
    (hcomplete : tree.isComplete columns) {outputs : List (String × FieldRef)}
    (houtputs : tree.outputAliases = outputs.map Prod.fst)
    {R : String × FieldRef → ScopeColumn → Prop}
    (h : ∀ column ∈ columns, ∀ index ∈ column.index,
      ∃ output, outputs[index]? = some output ∧ R output column) :
    List.Forall₂ R outputs columns := by
  have hindices : columns.map ScopeColumn.index = (List.range outputs.length).map some := by
    simpa [isComplete, houtputs] using hcomplete
  have hlength : columns.length = outputs.length := by
    simpa using congrArg List.length hindices
  rw [List.forall₂_iff_get]
  refine ⟨hlength.symm, fun index houtput hcolumn => ?_⟩
  have hindex : columns[index].index = some index := by
    have := congrArg (fun indices => indices[index]?) hindices
    simpa [hcolumn, houtput] using this
  obtain ⟨output, hget, hR⟩ := h columns[index] (List.getElem_mem hcolumn) index hindex
  rw [List.getElem?_eq_getElem houtput, Option.some.injEq] at hget
  simpa [hget] using hR

end QueryTree

/-- A scope without recursions comes to its base. -/
theorem baseMade_of_emitScope {target : Target} {scope : Scope} {entry : Option RecursionEntry}
    {emission : ScopeEmission} {supply later : Sql.AliasSupply}
    (hrecursions : scope.recursions = [])
    (h : emitScope target scope entry supply = .ok (emission, later)) :
    ∃ members, BaseMade target entry scope.group scope.folds members emission supply later := by
  obtain ⟨group, folds, recursions⟩ := scope
  obtain rfl : recursions = [] := hrecursions
  simp only [emitScope, Emit.bind_eq_ok_iff, emitLinks, List.isEmpty_nil, if_true,
    Emit.pure_eq_ok_iff] at h
  obtain ⟨⟨members, base⟩, _, hbase, _, _, ⟨rfl, rfl⟩, rfl, rfl⟩ := h
  exact ⟨members, baseMade_of_emitBase hbase⟩

end TraversalSql
