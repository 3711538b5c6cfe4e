import TraversalSql.Proofs.KeyMasks
import TraversalSql.Proofs.Naming

/-!
What recursive tables reach.  Their rows are the ways along the edge, up to the depth of the
recursion, on which no key is masked by those before it.  These are the ways without repetitions if
the keys hold no comma and no character that stands for others in patterns, but not in general.
-/

namespace TraversalSql

namespace Sql

section

variable {D : Type} [DecidableEq D] {combinator : Combinator}
  {next : List (List (Option D)) → List (List (Option D))}
  {seen round result : List (List (Option D))}

theorem Combinator.added_subset (combinator : Combinator) (seen round : List (List (Option D))) :
    combinator.added seen round ⊆ round := by
  cases combinator with
  | unionAll => exact List.Subset.refl _
  | union => exact fun tuple h => List.mem_dedup.1 (List.mem_of_mem_filter h)

/-- What a round finds was there or is added. -/
theorem Combinator.mem_append_added {tuple : List (Option D)} (h : tuple ∈ round) :
    tuple ∈ seen ++ combinator.added seen round := by
  by_cases hseen : tuple ∈ seen
  · exact List.mem_append_left _ hseen
  · refine List.mem_append_right _ ?_
    cases combinator with
    | unionAll => exact h
    | union => simpa [added, hseen] using h

namespace Rounds

theorem subset (h : Rounds combinator next seen round result) : seen ++ round ⊆ result := by
  induction h with
  | done seen => simp
  | more _ _ ih => exact List.Subset.trans (List.subset_append_left _ _) ih

/-- What holds of the first rows, and goes from a round to what the next one finds, holds of all
rows of a recursive table. -/
theorem forall_mem {P : List (Option D) → Prop} (h : Rounds combinator next seen round result)
    (hfirst : ∀ tuple ∈ seen ++ round, P tuple)
    (hnext : ∀ round, (∀ tuple ∈ round, P tuple) → ∀ tuple ∈ next round, P tuple) :
    ∀ tuple ∈ result, P tuple := by
  induction h with
  | done seen => simpa using hfirst
  | more _ _ ih =>
      refine ih fun tuple htuple => ?_
      rcases List.mem_append.1 htuple with htuple | htuple
      · exact hfirst tuple htuple
      · refine hnext _ (fun other hother => hfirst other (List.mem_append_right _ hother)) tuple ?_
        exact combinator.added_subset _ _ htuple

/-- A recursive table holds what is found from its rows, whatever else is found with it. -/
theorem closed {Next : List (Option D) → List (Option D) → Prop}
    (h : Rounds combinator next seen round result)
    (hnext : ∀ round, ∀ tuple ∈ round, ∀ further, Next tuple further → further ∈ next round)
    (hseen : ∀ tuple ∈ seen, ∀ further, Next tuple further → further ∈ seen ++ round) :
    ∀ tuple ∈ result, ∀ further, Next tuple further → further ∈ result := by
  induction h with
  | done seen => simpa using hseen
  | @more seen round _ _ _ ih =>
      refine ih fun tuple htuple further hfurther => ?_
      rcases List.mem_append.1 htuple with htuple | htuple
      · exact List.mem_append_left _ (hseen tuple htuple further hfurther)
      · exact Combinator.mem_append_added (hnext round tuple htuple further hfurther)

end Rounds

end

end Sql

namespace Recursion

open Sql

variable {D : Type} [DecidableEq D]

/-- An edge of a recursion leads from a key to another one: it connects rows of the vertex table
with these keys. -/
def Adjacent (recursion : Recursion) (schema : Schema) (stored : Stored D) (text : String → D)
    (here there : String) : Prop :=
  ∃ table key hops, schema.tableOf recursion.vertexType = .ok table ∧ table.keyColumn = .ok key ∧
    schema.hopsBetween recursion.vertexType recursion.traversal recursion.vertexType = .ok hops ∧
    ∃ outer ∈ table.rows stored, ∃ inner ∈ table.rows stored,
      outer key = some (text here) ∧ inner key = some (text there) ∧
      schema.Connects stored hops outer inner

/-- Keys on a way along the edge: it leaves from a key of the owner, and crosses no more edges than
the depth of the recursion. -/
structure Trail (recursion : Recursion) (schema : Schema) (tables : Tables D) (text : String → D)
    (keys : List String) : Prop where
  start : ∃ key ∈ keys.head?, ∃ row ∈ tables.named recursion.source,
    row recursion.link = some (text key)
  adjacent : keys.IsChain (recursion.Adjacent schema tables.stored text)
  bounded : keys.length ≤ recursion.depth + 1

/-- Keys as they are expected: those of the vertex table are texts if they are not missing, and the
owner exposes keys of the vertex table. -/
structure Keyed (recursion : Recursion) (schema : Schema) (tables : Tables D)
    (text : String → D) : Prop where
  texts : ∀ table key, schema.tableOf recursion.vertexType = .ok table →
    table.keyColumn = .ok key → ∀ row ∈ table.rows tables.stored, ∀ value ∈ row key,
      ∃ s, value = text s
  starts : ∀ table key, schema.tableOf recursion.vertexType = .ok table →
    table.keyColumn = .ok key → ∀ row ∈ tables.named recursion.source,
      ∀ value ∈ row recursion.link, ∃ vertex ∈ table.rows tables.stored, vertex key = some value

omit [DecidableEq D] in
/-- The row of a recursive table for keys on the way, as the values of its columns in order. -/
def tupleOf (text : String → D) (number : Int → D) (keys : List String) : List (Option D) :=
  [keys.head?.map text, keys.getLast?.map text, some (number (keys.length - 1 : Nat)),
    some (text (pathOf keys))]

omit [DecidableEq D] in
/-- The row of a recursive table for keys on the way. -/
def rowOf (recursion : Recursion) (text : String → D) (number : Int → D) (keys : List String) :
    Row D :=
  recursion.anchor.rowOf (tupleOf text number keys)

variable {session : Session D} {text : String → D} {number : Int → D} {recursion : Recursion}
  {environment : Environment D} {tables : Tables D} {schema : Schema}

omit [DecidableEq D] in
theorem columns_rowOf (recursion : Recursion) (text : String → D) (number : Int → D)
    (keys : List String) :
    recursion.rowOf text number keys anchorColumn = keys.head?.map text ∧
      recursion.rowOf text number keys reachedColumn = keys.getLast?.map text ∧
      recursion.rowOf text number keys depthColumn = some (number (keys.length - 1 : Nat)) ∧
      recursion.rowOf text number keys pathColumn = some (text (pathOf keys)) := by
  simp [rowOf, Select.rowOf, tupleOf, anchor, List.lookup, anchorColumn, reachedColumn,
    depthColumn, pathColumn]

/-- Both filters of a step hold exactly if the depth is not reached and the next key is not masked
by those on the way. -/
theorem holdAll_stepFilters_iff (h : session.Usual text number) {nextKey : Expr} {edges : Nat}
    {visited : List String} {key : String}
    (hdepth : environment recursion.name depthColumn = some (number edges))
    (hpath : environment recursion.name pathColumn = some (text (pathOf visited)))
    (hkey : nextKey.value session environment = some (text key)) :
    holdAll session (recursion.stepFilters nextKey) environment ↔
      edges < recursion.depth ∧ ¬ Masked visited key := by
  have hdepth : (recursion.column depthColumn).value session environment =
      some (number edges) := by
    rw [Recursion.column, Expr.value, hdepth]
  have hpath : (recursion.column pathColumn).value session environment =
      some (text (pathOf visited)) := by
    rw [Recursion.column, Expr.value, hpath]
  have hpattern := h.value_concat (h.value_string "%,") (h.value_castToText hkey)
    (h.value_string ",%")
  rw [holdAll_iff, stepFilters, List.forall_mem_cons, List.forall_mem_singleton,
    h.truth_lessThan hdepth, h.truth_notLike hpath hpattern, ← like_pathOf_iff]
  simp

omit [DecidableEq D] in
/-- The columns of a step to the next key. -/
theorem values_stepItems (h : session.Usual text number) {nextKey : Expr} {keys : List String}
    {key : String} (hkeys : keys ≠ [])
    (hrow : environment recursion.name = recursion.rowOf text number keys)
    (hkey : nextKey.value session environment = some (text key)) :
    (recursion.stepItems nextKey).map (fun item => item.expression.value session environment) =
      tupleOf text number (keys ++ [key]) := by
  obtain ⟨hanchor, -, hdepth, hpath⟩ := columns_rowOf recursion text number keys
  rw [← hrow] at hanchor hdepth hpath
  have hpath : (recursion.column pathColumn).value session environment =
      some (text (pathOf keys)) := by
    rw [Recursion.column, Expr.value, hpath]
  have hlonger := h.value_concat hpath (h.value_castToText hkey) (h.value_string ",")
  have hlength : 0 < keys.length := List.length_pos_of_ne_nil hkeys
  have hedges : ((keys.length - 1 : Nat) : Int) + 1 = (keys.length : Int) := by omega
  have hadd : (Expr.apply .addition [recursion.column depthColumn, .literal (.integer 1)]).value
      session environment = some (number keys.length) := by
    rw [Expr.value, Expr.values_eq_map, List.map_cons, List.map_singleton, Recursion.column,
      Expr.value, Expr.value, hdepth, h.integer]
    exact (h.add _ 1).trans (by rw [hedges])
  have hfirst : (recursion.column anchorColumn).value session environment =
      (keys ++ [key]).head?.map text := by
    rw [Recursion.column, Expr.value, hanchor, List.head?_append_of_ne_nil _ hkeys]
  simp only [stepItems, List.map_cons, List.map_nil, hfirst, hkey, hadd, hlonger, tupleOf,
    List.getLast?_concat, Option.map_some, List.length_append, List.length_singleton,
    Nat.add_sub_cancel, pathOf_concat]

/-- One row leads to another one by a step: it is extended by the joins of the step to where the
filters hold. -/
def Leads (recursion : Recursion) (session : Session D) (tables : Tables D) (step : Select)
    (tuple further : List (Option D)) : Prop :=
  ∃ environment ∈ extendAll session tables step.source.joins
      ((Environment.unbound D).bind recursion.name (recursion.anchor.rowOf tuple)),
    holdAll session step.filters environment ∧
      further = step.items.map fun item => item.expression.value session environment

variable {target : Target} {step : Select} {supply later : AliasSupply}

omit [DecidableEq D] in
/-- A step joins stored tables, whose rows do not depend on those of the recursive table. -/
theorem StepMade.rows_joins (h : recursion.StepMade target step supply later) (tables : Tables D)
    (rows : List (Row D)) :
    ∀ join ∈ step.source.joins,
      (tables.naming recursion.name rows).rows join.table = tables.rows join.table := by
  have hhops : ∀ {outer inner : BoundVertex} {hops : List JoinHop} {supply later : AliasSupply},
      JoinPath target.schema outer inner recursion.traversal supply hops later →
        ∀ hop ∈ hops, (tables.naming recursion.name rows).rows hop.table =
          tables.rows hop.table := by
    intro outer inner hops supply later hpath
    cases hpath with
    | direct | junction => simp [Table.reference, Tables.rows, Tables.naming]
  cases h with
  | fromKey _ _ hpath =>
      have hpath := hhops hpath
      intro join hjoin
      simp only [stepSelect, joinsFromKey] at hjoin
      split at hjoin
      · exact absurd hjoin List.not_mem_nil
      · rcases List.mem_cons.1 hjoin with rfl | hjoin
        · exact hpath _ List.mem_cons_self
        · obtain ⟨hop, hhop, rfl⟩ := List.mem_map.1 hjoin
          exact hpath hop (List.mem_cons_of_mem _ hhop)
  | fromRow _ _ _ hpath =>
      refine List.forall_mem_cons.2 ⟨rfl, fun join hjoin => ?_⟩
      obtain ⟨hop, hhop, rfl⟩ := List.mem_map.1 hjoin
      exact hhops hpath hop hhop

theorem StepMade.exists_stepSelect (h : recursion.StepMade target step supply later) :
    ∃ joins next key, step = recursion.stepSelect joins next key := by
  cases h with
  | fromKey | fromRow => exact ⟨_, _, _, rfl⟩

/-- A round of a recursive table finds the rows to which those of the round before lead. -/
theorem StepMade.mem_tuples_iff (h : recursion.StepMade target step supply later)
    {round : List (List (Option D))} {further : List (Option D)} :
    further ∈ step.tuples session
        (tables.naming recursion.name (round.map recursion.anchor.rowOf)) ↔
      ∃ tuple ∈ round, recursion.Leads session tables step tuple further := by
  obtain ⟨joins, next, key, rfl⟩ := h.exists_stepSelect
  have hrows : ∀ start, extendAll session
      (tables.naming recursion.name (round.map recursion.anchor.rowOf)) joins start =
        extendAll session tables joins start :=
    extendAll_congr (h.rows_joins tables (round.map recursion.anchor.rowOf))
  have hnamed : (tables.naming recursion.name (round.map recursion.anchor.rowOf)).rows
      (.cte recursion.name none) = round.map recursion.anchor.rowOf := if_pos rfl
  rw [Select.mem_tuples_iff_of_values rfl (by simp [stepSelect, stepItems, Recursion.column,
    Expr.groupValue])]
  simp only [FromClause.environments, Leads, List.mem_flatMap]
  constructor
  · rintro ⟨environment, ⟨_, hstart, hjoined⟩, hholds, rfl⟩
    obtain ⟨row, hrow, rfl⟩ := List.mem_map.1 hstart
    obtain ⟨tuple, htuple, rfl⟩ := List.mem_map.1 (hnamed ▸ hrow)
    exact ⟨tuple, htuple, environment, hrows _ ▸ hjoined, hholds, rfl⟩
  · rintro ⟨tuple, htuple, environment, hjoined, hholds, rfl⟩
    have hrow : recursion.anchor.rowOf tuple ∈ (tables.naming recursion.name
        (round.map recursion.anchor.rowOf)).rows (.cte recursion.name none) :=
      hnamed.symm ▸ List.mem_map_of_mem htuple
    exact ⟨environment, ⟨_, List.mem_map_of_mem hrow, (hrows _).symm ▸ hjoined⟩, hholds, rfl⟩

/-- What stands under the name of a recursive table is the row from which a step goes on. -/
theorem StepMade.row_of_joined {earlier : AliasSupply}
    (h : recursion.StepMade target step supply later)
    (hname : AliasSupply.Issued earlier supply recursion.name) {row : Row D}
    (henvironment : environment ∈ extendAll session tables step.source.joins
      ((Environment.unbound D).bind recursion.name row)) :
    environment recursion.name = row := by
  obtain ⟨haliases, htakes⟩ := h.takes
  have hfresh := (List.nodup_cons.1 (htakes.nodup_cons hname)).1
  rw [extendAll_of_not_mem henvironment, Environment.bind_self]
  have hjoined : step.source.joins.map (fun join => join.table.aliasName) =
      step.source.storedAliases := by
    have htail := congrArg List.tail haliases
    simpa [FromClause.aliases, FromClause.tables, Function.comp_def] using htail
  rwa [hjoined]

/-- A vertex of the table of a recursion has a key. -/
def Present (recursion : Recursion) (schema : Schema) (stored : Stored D) (text : String → D)
    (key : String) : Prop :=
  ∃ table column, schema.tableOf recursion.vertexType = .ok table ∧
    table.keyColumn = .ok column ∧ ∃ row ∈ table.rows stored, row column = some (text key)

omit [DecidableEq D] in
/-- The key that a step reaches. -/
theorem project_stepSelect (joins : List Join) (next key : String) :
    (recursion.stepSelect joins next key).project session environment reachedColumn =
      environment next key := by
  rw [((recursion.stepSelect joins next key).project_tableColumns session environment rfl).1,
    Expr.value]

/-- The path of a step to a vertex under a new alias takes new aliases only. -/
theorem takes_of_joinPath {outer : BoundVertex} {vertexType name : String} {hops : List JoinHop}
    {traversal : Traversal}
    (h : JoinPath schema outer ⟨vertexType, (supply.nextAlias name).1⟩ traversal
      (supply.nextAlias name).2 hops later) :
    supply.Takes (hops.map JoinHop.innerAlias) later := by
  obtain ⟨passed, haliases, hpassed⟩ := h.takes
  rw [haliases]
  exact ((AliasSupply.Takes.nextAlias supply name).append hpassed.toTakes).perm
    List.perm_append_comm

theorem issued_of_nextAlias_eq {started : AliasSupply} {table current : String}
    (h : supply.nextAlias table = (current, started)) :
    AliasSupply.Issued supply started current := by
  have htaken := AliasSupply.Takes.nextAlias supply table
  rw [h] at htaken
  exact htaken.issued current (List.mem_singleton.2 rfl)

/-- The edge of a recursion connects a row with a row of the vertex table. -/
def Reaches (recursion : Recursion) (schema : Schema) (stored : Stored D) (outer inner : Row D) :
    Prop :=
  ∃ table hops, schema.tableOf recursion.vertexType = .ok table ∧ inner ∈ table.rows stored ∧
    schema.hopsBetween recursion.vertexType recursion.traversal recursion.vertexType = .ok hops ∧
    schema.Connects stored hops outer inner

omit [DecidableEq D] in
/-- A key is present if a row of the vertex table has it. -/
theorem present_iff {table : Table} {column key : String}
    (htable : schema.tableOf recursion.vertexType = .ok table)
    (hcolumn : table.keyColumn = .ok column) {stored : Stored D} :
    recursion.Present schema stored text key ↔
      ∃ row ∈ table.rows stored, row column = some (text key) := by
  constructor
  · rintro ⟨found, other, hfound, hother, hrow⟩
    obtain rfl := Except.ok.inj (htable.symm.trans hfound)
    obtain rfl := Except.ok.inj (hcolumn.symm.trans hother)
    exact hrow
  · exact fun hrow => ⟨table, column, htable, hcolumn, hrow⟩

/-- An edge leads from a key to the keys of the rows that it reaches from a row with this key. -/
theorem adjacent_iff {table : Table} {column here there : String}
    (htable : schema.tableOf recursion.vertexType = .ok table)
    (hcolumn : table.keyColumn = .ok column) {stored : Stored D} :
    recursion.Adjacent schema stored text here there ↔
      ∃ outer ∈ table.rows stored, outer column = some (text here) ∧
        ∃ inner, recursion.Reaches schema stored outer inner ∧
          inner column = some (text there) := by
  constructor
  · rintro ⟨found, other, hops, hfound, hother, hhops, outer, houter, inner, hinner, hhere, hthere,
      hconnects⟩
    obtain rfl := Except.ok.inj (htable.symm.trans hfound)
    obtain rfl := Except.ok.inj (hcolumn.symm.trans hother)
    exact ⟨outer, houter, hhere, inner, ⟨table, hops, htable, hinner, hhops, hconnects⟩, hthere⟩
  · rintro ⟨outer, houter, hhere, inner, ⟨reached, hops, hreached, hinner, hhops, hconnects⟩,
      hthere⟩
    obtain rfl := Except.ok.inj (htable.symm.trans hreached)
    exact ⟨table, column, hops, htable, hcolumn, hhops, outer, houter, inner, hinner, hhere, hthere,
      hconnects⟩

/-- The joins of a step lead from a key exactly to the keys one edge further. -/
theorem StepMade.exists_joined_iff {earlier : AliasSupply}
    (h : recursion.StepMade target step supply later)
    (hname : AliasSupply.Issued earlier supply recursion.name) (session : Session D)
    (tables : Tables D) {row : Row D} {here there : String}
    (hreached : row reachedColumn = some (text here))
    (hpresent : recursion.Present target.schema tables.stored text here) :
    (∃ environment ∈ extendAll session tables step.source.joins
        ((Environment.unbound D).bind recursion.name row),
      step.project session environment reachedColumn = some (text there)) ↔
      recursion.Adjacent target.schema tables.stored text here there := by
  cases h with
  | @fromKey table key joined _ _ htable hkey hpath hleaves =>
      rw [present_iff htable hkey] at hpresent
      rw [adjacent_iff htable hkey]
      have hnodup := (takes_of_joinPath hpath).nodup_cons hname
      -- The key reached stands for that of any row with this key.
      have hleft : ∀ outer : Row D, outer key = some (text here) → ∀ hop ∈ joined.head?,
          (Environment.unbound D).bind recursion.name row recursion.name reachedColumn =
            outer hop.outerColumn := by
        intro outer houter hop hhop
        rw [Environment.bind_self, hreached, hleaves hop hhop, houter]
      have hreaches := fun outer houter =>
        hpath.exists_extended_joinsFromKey_iff hnodup session tables _ (hleft outer houter)
      simp only [project_stepSelect]
      constructor
      · rintro ⟨environment, hjoined, hthere⟩
        obtain ⟨outer, houter, hhere⟩ := hpresent
        exact ⟨outer, houter, hhere, _, (hreaches outer hhere _).1 ⟨environment, hjoined, rfl⟩,
          hthere⟩
      · rintro ⟨outer, -, hhere, inner, hinner, hthere⟩
        obtain ⟨environment, hjoined, rfl⟩ := (hreaches outer hhere inner).2 hinner
        exact ⟨environment, hjoined, hthere⟩
  | @fromRow table key joined _ started _ current htable hkey hcurrent hpath =>
      rw [adjacent_iff htable hkey]
      have hissued := issued_of_nextAlias_eq hcurrent
      have hne : recursion.name ≠ current := hname.ne hissued (.refl _)
      have hnodup := (takes_of_joinPath hpath).nodup_cons hissued
      have hcompared : ∀ outer : Row D, holdAll session [.equals (.column current key)
          (recursion.column reachedColumn)] (((Environment.unbound D).bind recursion.name row).bind
            current outer) ↔ outer key = some (text here) := by
        intro outer
        rw [holdAll_iff, List.forall_mem_singleton, Recursion.column, truth_equals_column,
          Environment.bind_self, Environment.bind_of_ne _ _ hne, Environment.bind_self, hreached,
          Engine.equal_eq_true_iff]
        simp
      have hreaches := fun outer : Row D => hpath.exists_extended_iff hnodup session tables
        (((Environment.unbound D).bind recursion.name row).bind current outer)
      simp only [Environment.bind_self] at hreaches
      simp only [project_stepSelect]
      simp only [stepSelect, extendAll, List.mem_flatMap, Join.mem_extend_inner_iff]
      constructor
      · rintro ⟨environment, ⟨_, ⟨outer, houter, rfl, hholds⟩, hjoined⟩, hthere⟩
        exact ⟨outer, houter, (hcompared outer).1 hholds, _,
          (hreaches outer _).1 ⟨environment, hjoined, rfl⟩, hthere⟩
      · rintro ⟨outer, houter, hhere, inner, hinner, hthere⟩
        obtain ⟨environment, hjoined, rfl⟩ := (hreaches outer inner).2 hinner
        exact ⟨environment, ⟨_, ⟨outer, houter, rfl, (hcompared outer).2 hhere⟩, hjoined⟩, hthere⟩

/-- A step reaches the key of a row of the vertex table. -/
theorem StepMade.exists_row_of_joined {earlier : AliasSupply}
    (h : recursion.StepMade target step supply later)
    (hname : AliasSupply.Issued earlier supply recursion.name) {row : Row D}
    (hjoined : environment ∈ extendAll session tables step.source.joins
      ((Environment.unbound D).bind recursion.name row)) :
    ∃ table key, target.schema.tableOf recursion.vertexType = .ok table ∧
      table.keyColumn = .ok key ∧ ∃ inner ∈ table.rows tables.stored,
        step.project session environment reachedColumn = inner key := by
  cases h with
  | @fromKey table key joined _ _ htable hkey hpath hleaves =>
      obtain ⟨left, hleft⟩ : ∃ left : Row D, ∀ hop ∈ joined.head?,
          (Environment.unbound D).bind recursion.name row recursion.name reachedColumn =
            left hop.outerColumn :=
        ⟨fun _ => _, fun _ _ => rfl⟩
      obtain ⟨reached, _, hreached, hrow, -⟩ :=
        (hpath.exists_extended_joinsFromKey_iff ((takes_of_joinPath hpath).nodup_cons hname)
          session tables _ hleft _).1 ⟨environment, hjoined, rfl⟩
      rw [project_stepSelect]
      obtain rfl := Except.ok.inj (htable.symm.trans hreached)
      exact ⟨_, key, hreached, hkey, _, hrow, rfl⟩
  | @fromRow table key joined _ started _ current htable hkey hcurrent hpath =>
      have hissued := issued_of_nextAlias_eq hcurrent
      obtain ⟨between, -, hjoined⟩ := List.mem_flatMap.1 hjoined
      obtain ⟨reached, _, hreached, hrow, -⟩ :=
        (hpath.exists_extended_iff ((takes_of_joinPath hpath).nodup_cons hissued) session tables
          between _).1 ⟨environment, hjoined, rfl⟩
      rw [project_stepSelect]
      obtain rfl := Except.ok.inj (htable.symm.trans hreached)
      exact ⟨_, key, hreached, hkey, _, hrow, rfl⟩

/-- A step goes to a key that is not missing. -/
theorem exists_value_of_holdAll {nextKey : Expr}
    (h : holdAll session (recursion.stepFilters nextKey) environment) :
    ∃ value, nextKey.value session environment = some value := by
  have hguard := holdAll_iff.1 h _ (List.mem_cons_of_mem _ List.mem_cons_self)
  cases hvalue : nextKey.value session environment with
  | some value => exact ⟨value, rfl⟩
  | none =>
      have hpattern : (Expr.concat [.string "%,", .castToText nextKey, .string ",%"]).value session
          environment = none := by
        rw [Expr.value, Expr.values_eq_map]
        simp [Expr.value, hvalue]
      rw [Expr.truth_apply session environment (by decide) (by decide)] at hguard
      simp [Engine.test, Truth.compare, Truth.negate, one_compared, hpattern] at hguard

omit [DecidableEq D] in
theorem project_eq_rowOf (joins : List Join) (next key : String) :
    (recursion.stepSelect joins next key).project session environment =
      recursion.anchor.rowOf ((recursion.stepSelect joins next key).items.map
        fun item => item.expression.value session environment) :=
  rfl

/-- One row leads to another one only below the depth, and the other one is one edge further. -/
theorem depth_of_leads {earlier : AliasSupply} (h : session.Usual text number)
    (hstep : recursion.StepMade target step supply later)
    (hname : AliasSupply.Issued earlier supply recursion.name) {tuple further : List (Option D)}
    (hleads : recursion.Leads session tables step tuple further) {edges : Nat}
    (hdepth : recursion.anchor.rowOf tuple depthColumn = some (number edges)) :
    edges < recursion.depth ∧
      recursion.anchor.rowOf further depthColumn = some (number (edges + 1 : Nat)) := by
  obtain ⟨environment, hjoined, hholds, rfl⟩ := hleads
  have hrow := hstep.row_of_joined hname hjoined
  obtain ⟨joins, next, key, rfl⟩ := hstep.exists_stepSelect
  have hdepth : (recursion.column depthColumn).value session environment =
      some (number edges) := by
    rw [Recursion.column, Expr.value, hrow, hdepth]
  have hbelow := holdAll_iff.1 hholds _ List.mem_cons_self
  rw [h.truth_lessThan hdepth] at hbelow
  refine ⟨by simpa using hbelow, ?_⟩
  rw [← project_eq_rowOf, ((recursion.stepSelect joins next key).project_tableColumns session
    environment rfl).2.1, Expr.value, Expr.values_eq_map, List.map_cons, List.map_cons, hdepth,
    Expr.value, h.integer]
  exact h.add edges 1

/-- What a step makes of the keys on the way and the key that it reaches. -/
theorem StepMade.of_rowOf {earlier : AliasSupply} (h : session.Usual text number)
    (hstep : recursion.StepMade target step supply later)
    (hname : AliasSupply.Issued earlier supply recursion.name) {keys : List String}
    (hkeys : keys ≠ []) {key : String}
    (hjoined : environment ∈ extendAll session tables step.source.joins
      ((Environment.unbound D).bind recursion.name (recursion.rowOf text number keys)))
    (hkey : step.project session environment reachedColumn = some (text key)) :
    (holdAll session step.filters environment ↔
        keys.length ≤ recursion.depth ∧ ¬ Masked keys key) ∧
      step.items.map (fun item => item.expression.value session environment) =
        tupleOf text number (keys ++ [key]) := by
  have hrow := hstep.row_of_joined hname hjoined
  obtain ⟨joins, next, column, rfl⟩ := hstep.exists_stepSelect
  obtain ⟨-, -, hdepth, hpath⟩ := columns_rowOf recursion text number keys
  rw [← hrow] at hdepth hpath
  have hnext : (Expr.column next column).value session environment = some (text key) := by
    rw [Expr.value, ← hkey, project_stepSelect]
  have hlength : keys.length - 1 < recursion.depth ↔ keys.length ≤ recursion.depth := by
    have := List.length_pos_of_ne_nil hkeys
    omega
  rw [← hlength]
  exact ⟨holdAll_stepFilters_iff h hdepth hpath hnext, values_stepItems h hkeys hrow hnext⟩

/-- The keys on the way lead one further along the edge, below the depth, to a key that they do not
mask. -/
theorem leads_of_adjacent {earlier : AliasSupply} (h : session.Usual text number)
    (hstep : recursion.StepMade target step supply later)
    (hname : AliasSupply.Issued earlier supply recursion.name) {keys : List String}
    {here key : String} (hlast : keys.getLast? = some here)
    (hadjacent : recursion.Adjacent target.schema tables.stored text here key)
    (hlength : keys.length ≤ recursion.depth) (hunmasked : ¬ Masked keys key) :
    recursion.Leads session tables step (tupleOf text number keys)
      (tupleOf text number (keys ++ [key])) := by
  have hpresent : recursion.Present target.schema tables.stored text here := by
    obtain ⟨table, column, _, htable, hcolumn, -, outer, houter, -, -, hhere, -⟩ := hadjacent
    exact ⟨table, column, htable, hcolumn, outer, houter, hhere⟩
  have hreached : recursion.rowOf text number keys reachedColumn = some (text here) := by
    rw [(columns_rowOf recursion text number keys).2.1, hlast, Option.map_some]
  have hkeys : keys ≠ [] := by
    rintro rfl
    exact absurd hlast (by simp)
  obtain ⟨environment, hjoined, hkey⟩ :=
    (hstep.exists_joined_iff hname session tables hreached hpresent).2 hadjacent
  obtain ⟨hholds, hitems⟩ := hstep.of_rowOf h hname hkeys hjoined hkey
  exact ⟨environment, hjoined, hholds.2 ⟨hlength, hunmasked⟩, hitems.symm⟩

/-- The keys on the way lead nowhere else. -/
theorem exists_adjacent_of_leads {earlier : AliasSupply} (h : session.Usual text number)
    (hstep : recursion.StepMade target step supply later)
    (hname : AliasSupply.Issued earlier supply recursion.name)
    (hkeyed : recursion.Keyed target.schema tables text) {keys : List String} {here : String}
    (hlast : keys.getLast? = some here)
    (hpresent : recursion.Present target.schema tables.stored text here)
    {further : List (Option D)}
    (hleads : recursion.Leads session tables step (tupleOf text number keys) further) :
    ∃ key, recursion.Adjacent target.schema tables.stored text here key ∧
      keys.length ≤ recursion.depth ∧ ¬ Masked keys key ∧
      further = tupleOf text number (keys ++ [key]) := by
  obtain ⟨environment, hjoined, hholds, rfl⟩ := hleads
  have hreached : recursion.rowOf text number keys reachedColumn = some (text here) := by
    rw [(columns_rowOf recursion text number keys).2.1, hlast, Option.map_some]
  have hkeys : keys ≠ [] := by
    rintro rfl
    exact absurd hlast (by simp)
  obtain ⟨value, hvalue⟩ :
      ∃ value, step.project session environment reachedColumn = some value := by
    obtain ⟨joins, next, column, rfl⟩ := hstep.exists_stepSelect
    rw [project_stepSelect]
    exact exists_value_of_holdAll hholds
  obtain ⟨key, rfl⟩ : ∃ key, value = text key := by
    obtain ⟨table, column, htable, hcolumn, inner, hinner, hproject⟩ :=
      hstep.exists_row_of_joined hname hjoined
    exact hkeyed.texts table column htable hcolumn inner hinner value (hproject.symm.trans hvalue)
  obtain ⟨hfilters, hitems⟩ := hstep.of_rowOf h hname hkeys hjoined hvalue
  obtain ⟨hlength, hunmasked⟩ := hfilters.1 hholds
  have hadjacent := (hstep.exists_joined_iff hname session tables hreached hpresent).1
    ⟨environment, hjoined, hvalue⟩
  exact ⟨key, hadjacent, hlength, hunmasked, hitems⟩

/-- The first rows of a recursive table are those of the keys that the owner exposes. -/
theorem mem_tuples_anchor_iff {tuple : List (Option D)} :
    tuple ∈ recursion.anchor.tuples session tables ↔
      ∃ row ∈ tables.named recursion.source, (row recursion.link).isSome ∧
        tuple = recursion.anchor.items.map fun item => item.expression.value session
          ((Environment.unbound D).bind recursion.source row) := by
  have htruth : ∀ row : Row D, holdAll session recursion.anchor.filters
      ((Environment.unbound D).bind recursion.source row) ↔ (row recursion.link).isSome := by
    intro row
    rw [holdAll_iff, anchor, List.forall_mem_singleton,
      Expr.truth_apply session _ (by decide) (by decide)]
    simp [Engine.test, one_compared, startKey, Expr.value]
  have hsource : recursion.anchor.source.environments session tables =
      (tables.named recursion.source).map ((Environment.unbound D).bind recursion.source) := by
    simp [anchor, FromClause.environments, extendAll, Tables.rows, TableRef.aliasName]
  rw [Select.mem_tuples_iff_of_values rfl (by simp [anchor, startKey, Expr.groupValue]), hsource]
  simp only [List.mem_map]
  constructor
  · rintro ⟨_, ⟨row, hrow, rfl⟩, hholds, rfl⟩
    exact ⟨row, hrow, (htruth row).1 hholds, rfl⟩
  · rintro ⟨row, hrow, hsome, rfl⟩
    exact ⟨_, ⟨row, hrow, rfl⟩, (htruth row).2 hsome, rfl⟩

omit [DecidableEq D] in
/-- The row of a key that the owner exposes. -/
theorem values_anchorItems (h : session.Usual text number) {row : Row D} {key : String}
    (hkey : row recursion.link = some (text key)) :
    (recursion.anchor.items.map fun item => item.expression.value session
      ((Environment.unbound D).bind recursion.source row)) = tupleOf text number [key] := by
  have hstart : recursion.startKey.value session
      ((Environment.unbound D).bind recursion.source row) = some (text key) := by
    rw [startKey, Expr.value, Environment.bind_self, hkey]
  have hconcat := h.value_concat (h.value_string ",") (h.value_castToText hstart)
    (h.value_string ",")
  have hpath : (Expr.castToPath (.concat [.string ",", .castToText recursion.startKey,
      .string ","])).value session ((Environment.unbound D).bind recursion.source row) =
        some (text (pathOf [key])) := by
    rw [Expr.value, hconcat, Option.bind_some, h.toPath]
    simp [pathOf, String.append_assoc]
  have hzero : (Expr.literal (.integer 0)).value session
      ((Environment.unbound D).bind recursion.source row) = some (number 0) := by
    rw [Expr.value]
    exact h.integer 0
  simp only [anchor, List.map_cons, List.map_nil, hstart, hpath, hzero]
  rfl

theorem depth_of_anchor (h : session.Usual text number) {tuple : List (Option D)}
    (htuple : tuple ∈ recursion.anchor.tuples session tables) :
    recursion.anchor.rowOf tuple depthColumn = some (number 0) := by
  obtain ⟨row, -, -, rfl⟩ := mem_tuples_anchor_iff.1 htuple
  refine (recursion.anchor.project_tableColumns session _ rfl).2.1.trans ?_
  rw [Expr.value]
  exact h.integer 0

theorem trail_concat_iff {keys : List String} {key : String} (hkeys : keys ≠ []) :
    recursion.Trail schema tables text (keys ++ [key]) ↔
      recursion.Trail schema tables text keys ∧
        (∀ here ∈ keys.getLast?, recursion.Adjacent schema tables.stored text here key) ∧
        keys.length ≤ recursion.depth := by
  have hhead : (keys ++ [key]).head? = keys.head? := List.head?_append_of_ne_nil _ hkeys
  constructor
  · rintro ⟨hstart, hadjacent, hbounded⟩
    rw [hhead] at hstart
    rw [List.isChain_append] at hadjacent
    rw [List.length_append, List.length_singleton] at hbounded
    have hlength : keys.length ≤ recursion.depth := Nat.le_of_succ_le_succ hbounded
    exact ⟨⟨hstart, hadjacent.1, Nat.le_succ_of_le hlength⟩, by simpa using hadjacent.2.2, hlength⟩
  · rintro ⟨⟨hstart, hadjacent, -⟩, hlast, hlength⟩
    refine ⟨hhead ▸ hstart, ?_, by simpa using hlength⟩
    rw [List.isChain_append]
    exact ⟨hadjacent, .singleton _, by simpa using hlast⟩

variable {earlier : AliasSupply} {combinator : Combinator} {result : List (List (Option D))}

/-- A recursive table reaches every key to which a way of unmasked keys leads. -/
theorem tupleOf_mem_of_trail (h : session.Usual text number)
    (hstep : recursion.StepMade target step supply later)
    (hname : AliasSupply.Issued earlier supply recursion.name)
    (hrounds : Rounds combinator (fun round => step.tuples session
        (tables.naming recursion.name (round.map recursion.anchor.rowOf)))
      [] (combinator.added [] (recursion.anchor.tuples session tables)) result)
    {keys : List String} (htrail : recursion.Trail target.schema tables text keys)
    (hunmasked : Unmasked keys) : tupleOf text number keys ∈ result := by
  have hclosed : ∀ tuple ∈ result, ∀ further,
      recursion.Leads session tables step tuple further → further ∈ result := by
    refine hrounds.closed (fun round tuple htuple further hleads => ?_) (by simp)
    exact hstep.mem_tuples_iff.2 ⟨tuple, htuple, hleads⟩
  induction keys using List.reverseRecOn with
  | nil =>
      obtain ⟨key, hkey, -⟩ := htrail.start
      exact absurd hkey (by simp)
  | append_singleton keys key ih =>
      by_cases hkeys : keys = []
      · -- The way starts here.
        subst hkeys
        obtain ⟨first, hfirst, row, hrow, hlink⟩ := htrail.start
        obtain rfl : key = first := by simpa using hfirst
        apply hrounds.subset
        refine Combinator.mem_append_added (mem_tuples_anchor_iff.2 ⟨row, hrow, ?_, ?_⟩)
        · rw [hlink, Option.isSome_some]
        · exact (values_anchorItems h hlink).symm
      · obtain ⟨htrail, hadjacent, hlength⟩ := (trail_concat_iff hkeys).1 htrail
        obtain ⟨hunmasked, hkey⟩ := unmasked_concat_iff.1 hunmasked
        have hlast := List.getLast?_eq_some_getLast hkeys
        exact hclosed _ (ih htrail hunmasked) _
          (leads_of_adjacent h hstep hname hlast (hadjacent _ hlast) hlength hkey)

/-- A recursive table reaches nothing else. -/
theorem exists_trail_of_mem (h : session.Usual text number)
    (hstep : recursion.StepMade target step supply later)
    (hname : AliasSupply.Issued earlier supply recursion.name)
    (hkeyed : recursion.Keyed target.schema tables text)
    (hrounds : Rounds combinator (fun round => step.tuples session
        (tables.naming recursion.name (round.map recursion.anchor.rowOf)))
      [] (combinator.added [] (recursion.anchor.tuples session tables)) result) :
    ∀ tuple ∈ result, ∃ keys, recursion.Trail target.schema tables text keys ∧ Unmasked keys ∧
      tuple = tupleOf text number keys := by
  obtain ⟨table, column, htable, hcolumn⟩ : ∃ table column,
      target.schema.tableOf recursion.vertexType = .ok table ∧ table.keyColumn = .ok column := by
    cases hstep with
    | fromKey htable hkey | fromRow htable hkey => exact ⟨_, _, htable, hkey⟩
  -- The last key is that of a vertex, from which the next step leaves.
  have hall : ∀ tuple ∈ result, ∃ keys here, recursion.Trail target.schema tables text keys ∧
      Unmasked keys ∧ keys.getLast? = some here ∧
      recursion.Present target.schema tables.stored text here ∧
      tuple = tupleOf text number keys := by
    refine hrounds.forall_mem ?_ ?_
    · intro tuple htuple
      obtain ⟨row, hrow, hsome, rfl⟩ :=
        mem_tuples_anchor_iff.1 (combinator.added_subset _ _ (by simpa using htuple))
      obtain ⟨value, hvalue⟩ := Option.isSome_iff_exists.1 hsome
      obtain ⟨vertex, hvertex, hkey⟩ :=
        hkeyed.starts table column htable hcolumn row hrow value hvalue
      obtain ⟨key, rfl⟩ := hkeyed.texts table column htable hcolumn vertex hvertex value hkey
      refine ⟨[key], key, ⟨⟨key, rfl, row, hrow, hvalue⟩, .singleton _, by simp⟩, ?_, rfl,
        ⟨table, column, htable, hcolumn, vertex, hvertex, hkey⟩, values_anchorItems h hvalue⟩
      have hnone : Unmasked [] := fun earlier key hprefix => by simp at hprefix
      exact unmasked_concat_iff.2 ⟨hnone, not_masked_nil key⟩
    · intro round hround further hfurther
      obtain ⟨tuple, htuple, hleads⟩ := hstep.mem_tuples_iff.1 hfurther
      obtain ⟨keys, here, htrail, hunmasked, hlast, hpresent, rfl⟩ := hround tuple htuple
      obtain ⟨key, hadjacent, hlength, hkey, rfl⟩ :=
        exists_adjacent_of_leads h hstep hname hkeyed hlast hpresent hleads
      have hkeys : keys ≠ [] := by
        rintro rfl
        exact absurd hlast (by simp)
      refine ⟨keys ++ [key], key, ?_, unmasked_concat_iff.2 ⟨hunmasked, hkey⟩,
        List.getLast?_concat, ?_, rfl⟩
      · refine (trail_concat_iff hkeys).2 ⟨htrail, fun other hother => ?_, hlength⟩
        exact Option.some.inj (hlast.symm.trans hother) ▸ hadjacent
      · obtain ⟨table, column, _, htable, hcolumn, -, -, -, inner, hinner, -, hthere, -⟩ :=
          hadjacent
        exact ⟨table, column, htable, hcolumn, inner, hinner, hthere⟩
  intro tuple htuple
  obtain ⟨keys, here, htrail, hunmasked, -, -, hsame⟩ := hall tuple htuple
  exact ⟨keys, htrail, hunmasked, hsame⟩

/-- The rounds of a recursive table come to an end: each goes one edge further, and none beyond the
depth. -/
theorem exists_rounds (h : session.Usual text number)
    (hstep : recursion.StepMade target step supply later)
    (hname : AliasSupply.Issued earlier supply recursion.name) (combinator : Combinator)
    {left edges : Nat} (hedges : edges + left = recursion.depth + 1)
    (seen : List (List (Option D))) {round : List (List (Option D))}
    (hround : ∀ tuple ∈ round, edges ≤ recursion.depth ∧
      recursion.anchor.rowOf tuple depthColumn = some (number edges)) :
    ∃ result, Rounds combinator (fun round => step.tuples session
        (tables.naming recursion.name (round.map recursion.anchor.rowOf))) seen round result := by
  induction left generalizing edges seen round with
  | zero =>
      obtain rfl : round = [] := by
        refine List.eq_nil_iff_forall_not_mem.2 fun tuple htuple => ?_
        have := (hround tuple htuple).1
        omega
      exact ⟨seen, .done seen⟩
  | succ left ih =>
      by_cases hnone : round = []
      · exact ⟨seen, hnone ▸ .done seen⟩
      · have hnext : ∀ further ∈ combinator.added (seen ++ round) (step.tuples session
            (tables.naming recursion.name (round.map recursion.anchor.rowOf))),
            edges + 1 ≤ recursion.depth ∧
              recursion.anchor.rowOf further depthColumn = some (number (edges + 1 : Nat)) := by
          intro further hfurther
          obtain ⟨tuple, htuple, hleads⟩ :=
            hstep.mem_tuples_iff.1 (combinator.added_subset _ _ hfurther)
          exact depth_of_leads h hstep hname hleads (hround tuple htuple).2
        obtain ⟨result, hresult⟩ := ih (by omega) (seen ++ round) hnext
        exact ⟨result, .more hnone hresult⟩

/-- A recursive table is made of the anchor and a step. -/
theorem exists_stepMade_of_cte {table : Cte}
    (h : recursion.cte target supply = .ok (table, later)) :
    ∃ step combinator, recursion.StepMade target step supply later ∧
      table = ⟨recursion.name, .recursive recursion.anchor step combinator, true⟩ := by
  simp only [Recursion.cte, Emit.bind_eq_ok_iff, Emit.lift_eq_ok_iff, Emit.pure_eq_ok_iff] at h
  obtain ⟨step, _, hmade, combinator, _, ⟨-, rfl⟩, rfl, rfl⟩ := h
  exact ⟨step, combinator, stepMade_of_step hmade, rfl⟩

/-- What recursive tables reach.  The filters of a step hold exactly if the depth is not reached and
the next key is not masked by the keys on the way, which for keys of plain characters is to say that
it is not one of them.  A recursive table has rows, one for each way along the edge on which no key
is masked by those before it, up to the depth of the recursion; these are the ways without
repetitions where the keys are plain. -/
theorem reaches_unmasked (h : session.Usual text number) {table : Cte}
    (hname : AliasSupply.Issued earlier supply recursion.name)
    (htable : recursion.cte target supply = .ok (table, later)) {anchor : Select}
    (hcontent : table.content = .recursive anchor step combinator) (tables : Tables D) :
    (∀ rows last keys, Derivation session table.name anchor step rows last →
      (∀ i ≤ last, rows i reachedColumn = some (text (keys i))) →
      ∀ environment key, environment table.name = rows last →
        step.project session environment reachedColumn = some (text key) →
        (holdAll session step.filters environment ↔
          last < recursion.depth ∧ ¬ Masked ((List.range (last + 1)).map keys) key)) ∧
    (∀ visited key, (∀ other ∈ visited, Plain other) → Plain key →
      (Masked visited key ↔ key ∈ visited)) ∧
    (∃ rows, table.content.Denotes session tables table.name rows) ∧
    ∀ rows, table.content.Denotes session tables table.name rows →
      (∀ keys, recursion.Trail target.schema tables text keys →
        Unmasked keys ∨ keys.Nodup ∧ (∀ key ∈ keys, Plain key) →
        recursion.rowOf text number keys ∈ rows) ∧
      (recursion.Keyed target.schema tables text → ∀ row ∈ rows, ∃ keys,
        recursion.Trail target.schema tables text keys ∧ Unmasked keys ∧
          row = recursion.rowOf text number keys) := by
  obtain ⟨made, way, hstep, rfl⟩ := exists_stepMade_of_cte htable
  obtain ⟨rfl, rfl, rfl⟩ := CteContent.recursive.inj hcontent
  refine ⟨?_, ?_, ?_, ?_⟩
  · intro rows last keys hrows hkeys environment key hrow hkey
    obtain ⟨joins, next, column, rfl⟩ := hstep.exists_stepSelect
    obtain ⟨-, hdepth, hpath, -⟩ := rows_of_derivation h hrows hkeys last (Nat.le_refl _)
    rw [← hrow] at hdepth hpath
    rw [project_stepSelect] at hkey
    exact holdAll_stepFilters_iff h hdepth hpath hkey
  · intro visited key hvisited
    exact masked_iff_mem fun other hother => (hvisited other hother).1
  · have hfirst : ∀ tuple ∈ way.added [] (recursion.anchor.tuples session tables),
        0 ≤ recursion.depth ∧ recursion.anchor.rowOf tuple depthColumn = some (number (0 : Nat)) :=
      fun tuple htuple => ⟨Nat.zero_le _, depth_of_anchor h (way.added_subset _ _ htuple)⟩
    obtain ⟨result, hresult⟩ := exists_rounds h hstep hname way (Nat.zero_add _) [] hfirst
    exact ⟨_, .recursive hresult⟩
  · rintro _ (_ | hrounds)
    constructor
    · intro keys htrail hkeys
      have hunmasked : Unmasked keys :=
        hkeys.elim id fun ⟨hnodup, hplain⟩ => (unmasked_iff_nodup hplain).2 hnodup
      exact List.mem_map_of_mem (tupleOf_mem_of_trail h hstep hname hrounds htrail hunmasked)
    · intro hkeyed row hrow
      obtain ⟨tuple, htuple, rfl⟩ := List.mem_map.1 hrow
      obtain ⟨keys, htrail, hunmasked, rfl⟩ :=
        exists_trail_of_mem h hstep hname hkeyed hrounds tuple htuple
      exact ⟨keys, htrail, hunmasked, rfl⟩

def animalRow (key : String) (parent : Option String) : Row Datum
  | "id" => some (.text key)
  | "parent_id" => parent.map .text
  | _ => none

/-- An animal whose ancestors are asked for, and its parent. -/
def family (child parent : String) : Tables Datum where
  stored
    | none, "animal" => [animalRow child (some parent), animalRow parent none]
    | _, _ => []
  named
    | "scope_1" => [fun column => if column = "__link_1" then some (.text child) else none]
    | _ => []

theorem trail_family (child parent : String) :
    ancestry.Trail Query.farm.schema (family child parent) Datum.text [child, parent] where
  start := ⟨child, rfl, _, List.mem_singleton.2 rfl, rfl⟩
  adjacent := by
    rw [List.isChain_pair]
    refine ⟨_, "id", [⟨"parent_id", .vertex, "id"⟩], rfl, rfl, rfl, _, List.mem_cons_self, _,
      List.mem_cons_of_mem _ List.mem_cons_self, rfl, rfl, ?_⟩
    simp [Schema.Connects, animalRow, Engine.equal, Truth.compare]
  bounded := Nat.le_of_ble_eq_true rfl

theorem cte_ancestry :
    ∃ later, ancestry.cte Query.farm (AliasSupply.fresh.nextCte .recursion).2 =
      .ok (⟨"recursion_1", .recursive ancestry.anchor ancestryStep .union, true⟩, later) := by
  have hmade : (ancestry.cte Query.farm (AliasSupply.fresh.nextCte .recursion).2).map Prod.fst =
      .ok ⟨"recursion_1", .recursive ancestry.anchor ancestryStep .union, true⟩ := by cbv
  obtain ⟨⟨table, later⟩, htable, rfl⟩ := Outcome.map_eq_ok_iff.1 hmade
  exact ⟨later, htable⟩

theorem reaches_unmasked_ancestry :
    ancestry.Trail Query.farm.schema (family "a" "b") Datum.text ["a", "b"] ∧
      ∃ rows, (CteContent.recursive ancestry.anchor ancestryStep .union).Denotes Datum.session
          (family "a" "b") "recursion_1" rows ∧
        ancestry.rowOf Datum.text Datum.number ["a", "b"] ∈ rows := by
  obtain ⟨later, htable⟩ := cte_ancestry
  have hname : AliasSupply.Issued .fresh (AliasSupply.fresh.nextCte .recursion).2 ancestry.name :=
    AliasSupply.issued_next .fresh "recursion"
  obtain ⟨-, -, ⟨rows, hrows⟩, hall⟩ :=
    reaches_unmasked Datum.usual_session hname htable rfl (family "a" "b")
  refine ⟨trail_family "a" "b", rows, hrows, ?_⟩
  exact (hall rows hrows).1 _ (trail_family "a" "b") (.inr ⟨by decide, by decide⟩)

/-- A parent whose key is an underscore is not reached: the key matches that of the child. -/
theorem not_reached_underscore :
    ancestry.Trail Query.farm.schema (family "a" "_") Datum.text ["a", "_"] ∧
      ["a", "_"].Nodup ∧ 1 < ancestry.depth ∧
      (∃ environment, environment ancestry.name =
          ancestry.anchor.project Datum.session (fun _ _ => some (.text "a")) ∧
        ancestryStep.project Datum.session environment reachedColumn = some (.text "_") ∧
        ¬ holdAll Datum.session ancestryStep.filters environment) ∧
      ∀ rows, (CteContent.recursive ancestry.anchor ancestryStep .union).Denotes Datum.session
          (family "a" "_") ancestry.name rows →
        ∀ row ∈ rows, row reachedColumn ≠ some (.text "_") := by
  refine ⟨trail_family "a" "_", by decide, by decide, ?_, ?_⟩
  · refine ⟨((Environment.unbound Datum).bind ancestry.name (ancestry.anchor.project Datum.session
      fun _ _ => some (.text "a"))).bind "animal_2" fun _ => some (.text "_"), rfl, rfl, ?_⟩
    have hfalse : holdAll Datum.session ancestryStep.filters
      (((Environment.unbound Datum).bind ancestry.name (ancestry.anchor.project Datum.session
        fun _ _ => some (.text "a"))).bind "animal_2" fun _ => some (.text "_")) = false := by cbv
    simp [hfalse]
  · rintro _ (_ | hrounds)
    have hanchor : ancestry.anchor.tuples Datum.session (family "a" "_") =
        [tupleOf Datum.text Datum.number ["a"]] := by cbv
    have hstep : ancestryStep.tuples Datum.session ((family "a" "_").naming ancestry.name
        ([tupleOf Datum.text Datum.number ["a"]].map ancestry.anchor.rowOf)) = [] := by cbv
    have hfirst : Combinator.union.added [] (ancestry.anchor.tuples Datum.session
        (family "a" "_")) = [tupleOf Datum.text Datum.number ["a"]] := by
      rw [hanchor]
      cbv
    rw [hfirst] at hrounds
    cases hrounds with
    | more _ hrest =>
        rw [hstep] at hrest
        have hnone : ∀ seen : List (List (Option Datum)), Combinator.union.added seen [] = [] :=
          fun _ => rfl
        rw [hnone] at hrest
        cases hrest with
        | done =>
            intro row hrow
            obtain rfl : row = ancestry.rowOf Datum.text Datum.number ["a"] :=
              List.mem_singleton.1 hrow
            rw [(columns_rowOf ancestry Datum.text Datum.number ["a"]).2.1]
            decide
        | more hround => exact absurd rfl hround

end Recursion

end TraversalSql
