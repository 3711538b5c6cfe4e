import TraversalSql.Proofs.ColumnReads
import TraversalSql.Proofs.Matching

/-!
Rows that are grouped by a column and joined back by it.  Expressions see of an environment only
what stands under the aliases that they read, so joins can be followed on a part of it.  A left join
with a table that was grouped by the column that it compares finds one row at most: that of the
group with the value it looks for.
-/

namespace TraversalSql.Sql

variable {D : Type}

namespace Environment

/-- What stands under some aliases, with nothing bound elsewhere. -/
def only (aliases : List String) (environment : Environment D) : Environment D :=
  fun aliasName => if aliasName ∈ aliases then environment aliasName else Row.missing D

theorem only_of_mem {aliases : List String} {aliasName : String} (h : aliasName ∈ aliases)
    (environment : Environment D) : environment.only aliases aliasName = environment aliasName :=
  if_pos h

theorem only_bind {aliases : List String} {aliasName : String} (h : aliasName ∈ aliases)
    (environment : Environment D) (row : Row D) :
    (environment.bind aliasName row).only aliases =
      (environment.only aliases).bind aliasName row := by
  funext other
  by_cases hother : other = aliasName
  · subst hother
    rw [only_of_mem h, bind_self, bind_self]
  · rw [bind_of_ne _ _ hother, only, only, bind_of_ne _ _ hother]

/-- Where nothing is bound under some aliases, nothing is left of them. -/
theorem only_eq_unbound {aliases : List String} {environment : Environment D}
    (h : ∀ aliasName ∈ aliases, environment aliasName = Row.missing D) :
    environment.only aliases = unbound D := by
  funext aliasName
  by_cases hmem : aliasName ∈ aliases
  · rw [only_of_mem hmem, h aliasName hmem]
    rfl
  · exact if_neg hmem

end Environment

namespace Expr

variable (session : Session D) {environment other : Environment D}

mutual

/-- The value of an expression depends on the aliases that it reads. -/
theorem value_congr (e : Expr)
    (h : ∀ column ∈ e.columns, environment column.1 = other column.1) :
    e.value session environment = e.value session other := by
  match e with
  | .literal _ | .raw _ | .parameter _ | .aggregate _ _ => simp only [value]
  | .column table name =>
      have hrow : environment table = other table := h (table, name) (by simp [columns])
      simp only [value, hrow]
  | .apply operator operands => simp only [value, values_congr operands h]
  | .castToText inner | .castToPath inner => simp only [value, value_congr inner h]
  | .concat parts => simp only [value, values_congr parts h]

theorem values_congr (es : List Expr)
    (h : ∀ column ∈ columnsOfAll es, environment column.1 = other column.1) :
    values session environment es = values session other es := by
  match es with
  | [] => rfl
  | e :: rest =>
      rw [columnsOfAll, List.forall_mem_append] at h
      rw [values, values, value_congr e h.1, values_congr rest h.2]

end

theorem compared_congr (e : Expr)
    (h : ∀ column ∈ e.columns, environment column.1 = other column.1) :
    compared session environment e = compared session other e := by
  have hvalue := value_congr session e h
  cases e with
  | parameter name => rfl
  | _ => simp only [compared, hvalue]

variable [DecidableEq D]

mutual

/-- The truth of a condition depends on the aliases that it reads. -/
theorem truth_congr (e : Expr)
    (h : ∀ column ∈ e.columns, environment column.1 = other column.1) :
    e.truth session environment = e.truth session other := by
  match e with
  | .literal _ | .raw _ | .parameter _ | .aggregate _ _ | .column _ _ | .castToText _
  | .castToPath _ | .concat _ => simp only [truth]
  | .apply operator operands =>
      by_cases hand : operator = .and
      · subst hand
        rw [truth, truth, truths_congr operands h]
      · by_cases hor : operator = .or
        · subst hor
          rw [truth, truth, truths_congr operands h]
        · have hoperands : operands.map (compared session environment) =
              operands.map (compared session other) := by
            refine List.map_congr_left fun e he => compared_congr session e fun column hcolumn => ?_
            rw [columns_apply] at h
            exact h column (List.mem_flatMap.2 ⟨e, he, hcolumn⟩)
          rw [truth_apply session _ hand hor, truth_apply session _ hand hor, hoperands]

theorem truths_congr (es : List Expr)
    (h : ∀ column ∈ columnsOfAll es, environment column.1 = other column.1) :
    truths session environment es = truths session other es := by
  match es with
  | [] => rfl
  | e :: rest =>
      rw [columnsOfAll, List.forall_mem_append] at h
      rw [truths, truths, truth_congr e h.1, truths_congr rest h.2]

end

end Expr

variable [DecidableEq D] {session : Session D} {tables others : Tables D}

/-- Conditions that read some aliases only hold or fail on these. -/
theorem holdAll_only {conditions : List Expr} {aliases : List String}
    (h : ∀ e ∈ conditions, ∀ column ∈ e.columns, column.1 ∈ aliases)
    (environment : Environment D) :
    holdAll session conditions (environment.only aliases) =
      holdAll session conditions environment := by
  rw [Bool.eq_iff_iff, holdAll_iff, holdAll_iff]
  refine forall₂_congr fun e he => ?_
  rw [Expr.truth_congr session e fun column hcolumn =>
    Environment.only_of_mem (h e he column hcolumn) environment]

/-- A join that reads and binds some aliases only can be followed on these. -/
theorem Join.extend_only {join : Join} {aliases : List String}
    (halias : join.table.aliasName ∈ aliases)
    (hreads : ∀ e ∈ join.conditions, ∀ column ∈ e.columns, column.1 ∈ aliases)
    (environment : Environment D) :
    join.extend session tables (environment.only aliases) =
      (join.extend session tables environment).map (Environment.only aliases) := by
  have hpartners : ((tables.rows join.table).map
        ((environment.only aliases).bind join.table.aliasName)).filter
          (holdAll session join.conditions) =
      (((tables.rows join.table).map (environment.bind join.table.aliasName)).filter
        (holdAll session join.conditions)).map (Environment.only aliases) := by
    rw [List.filter_map, List.filter_map, List.map_map]
    have hbind : Environment.only aliases ∘ environment.bind join.table.aliasName =
        (environment.only aliases).bind join.table.aliasName :=
      funext fun row => Environment.only_bind halias environment row
    rw [hbind]
    congr 1
    apply List.filter_congr
    intro row _
    rw [Function.comp_apply, Function.comp_apply, ← Environment.only_bind halias,
      holdAll_only hreads]
  unfold Join.extend
  simp only [hpartners]
  cases join.kind with
  | inner => rfl
  | left =>
      cases ((tables.rows join.table).map (environment.bind join.table.aliasName)).filter
          (holdAll session join.conditions) with
      | nil => simp [Environment.only_bind halias]
      | cons => rfl

/-- Joins that read and bind some aliases only can be followed on these. -/
theorem extendAll_only {joins : List Join} {aliases : List String}
    (h : ∀ join ∈ joins, join.table.aliasName ∈ aliases ∧
      ∀ e ∈ join.conditions, ∀ column ∈ e.columns, column.1 ∈ aliases)
    (environment : Environment D) :
    extendAll session tables joins (environment.only aliases) =
      (extendAll session tables joins environment).map (Environment.only aliases) := by
  induction joins generalizing environment with
  | nil => rfl
  | cons join joins ih =>
      obtain ⟨⟨halias, hreads⟩, hjoins⟩ := List.forall_mem_cons.1 h
      rw [extendAll, extendAll, Join.extend_only halias hreads, List.flatMap_map, List.map_flatMap]
      exact List.flatMap_congr fun extended _ => ih hjoins extended

/-- A `FROM` clause binds nothing but its own aliases. -/
theorem FromClause.environments_of_not_mem {source : FromClause} {environment : Environment D}
    (h : environment ∈ source.environments session tables) {aliasName : String}
    (hnotMem : aliasName ∉ source.aliases) : environment aliasName = Row.missing D := by
  obtain ⟨start, hstart, hextended⟩ := List.mem_flatMap.1 h
  obtain ⟨row, -, rfl⟩ := List.mem_map.1 hstart
  simp only [aliases, FromClause.tables, List.map_cons, List.map_map, List.mem_cons, not_or]
    at hnotMem
  rw [extendAll_of_not_mem hextended hnotMem.2, Environment.bind_of_ne _ _ hnotMem.1]
  rfl

theorem FromClause.environments_append (base : TableRef) (joins more : List Join) :
    (FromClause.mk base (joins ++ more)).environments session tables =
      ((FromClause.mk base joins).environments session tables).flatMap
        (extendAll session tables more) := by
  simp only [FromClause.environments, List.flatMap_assoc]
  exact List.flatMap_congr fun environment _ => extendAll_append joins more environment

/-- Joins that each add one row, whatever those before them added, add one row together. -/
theorem extendAll_eq_singleton {α : Type} {l : List α} {join : α → Join} {row : α → Row D}
    (hnodup : (l.map fun a => (join a).table.aliasName).Nodup) {names : List String}
    (hnames : (l.map fun a => (join a).table.aliasName) ⊆ names)
    {start environment : Environment D}
    (hstart : ∀ aliasName, aliasName ∉ names → environment aliasName = start aliasName)
    (hstep : ∀ a ∈ l, ∀ between : Environment D,
      (∀ aliasName, aliasName ∉ names → between aliasName = start aliasName) →
        (join a).extend session tables between =
          [between.bind (join a).table.aliasName (row a)]) :
    ∃ extended, extendAll session tables (l.map join) environment = [extended] ∧
      (∀ aliasName, aliasName ∉ l.map (fun a => (join a).table.aliasName) →
        extended aliasName = environment aliasName) ∧
      ∀ a ∈ l, extended (join a).table.aliasName = row a := by
  induction l generalizing environment with
  | nil => exact ⟨environment, rfl, fun _ _ => rfl, by simp⟩
  | cons a l ih =>
      obtain ⟨hnew, hnodup⟩ := List.nodup_cons.1 hnodup
      obtain ⟨hmem, hnames⟩ := List.cons_subset.1 hnames
      obtain ⟨hfirst, hrest⟩ := List.forall_mem_cons.1 hstep
      have hnext : ∀ aliasName, aliasName ∉ names →
          environment.bind (join a).table.aliasName (row a) aliasName = start aliasName := by
        intro aliasName hnotMem
        rw [Environment.bind_of_ne _ _ (ne_of_mem_of_not_mem hmem hnotMem).symm]
        exact hstart aliasName hnotMem
      obtain ⟨extended, hextended, hsame, hrows⟩ := ih hnodup hnames hnext hrest
      refine ⟨extended, ?_, fun aliasName hnotMem => ?_, List.forall_mem_cons.2 ⟨?_, hrows⟩⟩
      · rw [List.map_cons, extendAll, hfirst environment hstart, List.flatMap_singleton, hextended]
      · rw [List.map_cons, List.mem_cons, not_or] at hnotMem
        rw [hsame aliasName hnotMem.2, Environment.bind_of_ne _ _ hnotMem.1]
      · rw [hsame _ hnew, Environment.bind_self]

/-- Of values that differ, one at most equals the value that is looked for. -/
theorem filter_equal_dedup (values : List (Option D)) (value : Option D) :
    values.dedup.filter (fun other => Engine.equal value other = some true) =
      if value ∈ values ∧ value ≠ none then [value] else [] := by
  cases value with
  | none => simp [Engine.equal_eq_true_iff]
  | some found =>
      have hsame : ∀ other ∈ values.dedup,
          decide (Engine.equal (some found) other = some true) = (other == some found) := by
        intro other _
        rw [Bool.eq_iff_iff, decide_eq_true_iff, Engine.equal_eq_true_iff, beq_iff_eq]
        simp
      rw [List.filter_congr hsame, List.filter_beq]
      by_cases hmem : some found ∈ values
      · rw [List.count_eq_one_of_mem values.nodup_dedup (List.mem_dedup.2 hmem)]
        simp [hmem]
      · rw [List.count_eq_zero.2 fun h => hmem (List.mem_dedup.1 h)]
        simp [hmem]

namespace Select

variable {query : Select} {key : Expr}

/-- The values of an expression in the rows that a select keeps. -/
def keyValues (session : Session D) (tables : Tables D) (query : Select) (key : Expr) :
    List (Option D) :=
  (query.kept session tables).map fun environment => key.value session environment

/-- The rows that a select keeps in which an expression has a given value. -/
def groupWith (session : Session D) (tables : Tables D) (query : Select) (key : Expr)
    (value : Option D) : List (Environment D) :=
  (query.kept session tables).filter fun environment => key.value session environment = value

/-- The rows that a select keeps in which an expression equals the value that is looked for. -/
def keptWith (session : Session D) (tables : Tables D) (query : Select) (key : Expr)
    (value : Option D) : List (Environment D) :=
  (query.kept session tables).filter fun environment =>
    Engine.equal value (key.value session environment) = some true

theorem groupWith_ne_nil_iff {value : Option D} :
    query.groupWith session tables key value ≠ [] ↔
      value ∈ query.keyValues session tables key := by
  simp [groupWith, keyValues]

/-- A missing value finds nothing, and any other value finds its group. -/
theorem keptWith_eq (value : Option D) :
    query.keptWith session tables key value =
      if value ≠ none then query.groupWith session tables key value else [] := by
  cases value with
  | none => simp [keptWith, Engine.equal_eq_true_iff]
  | some found =>
      rw [if_pos (by simp)]
      refine List.filter_congr fun environment _ => ?_
      rw [decide_eq_decide, Engine.equal_eq_true_iff]
      simp

/-- The groups of a select by one expression: one for each of its values. -/
theorem groups_of_groupBy (hgroup : query.groupBy = [key]) :
    query.groups session tables = (query.keyValues session tables key).dedup.map
      (query.groupWith session tables key) := by
  have hkey : ∀ environment : Environment D,
      Expr.values session environment [key] = [key.value session environment] := by
    intro environment
    rw [Expr.values, Expr.values]
  have hinjective : Function.Injective fun value : Option D => [value] :=
    fun first second hsame => (List.cons.inj hsame).1
  have hkeys : ((query.kept session tables).map fun environment =>
        [key.value session environment]).dedup =
      (query.keyValues session tables key).dedup.map fun value => [value] := by
    rw [← List.dedup_map_of_injective hinjective, keyValues, List.map_map]
    rfl
  unfold groups
  rw [hgroup, List.isEmpty_cons, if_neg Bool.false_ne_true]
  simp only [hkey, hkeys, List.map_map, Function.comp_def, List.cons.injEq, and_true]
  rfl

/-- The rows with the value that is looked for are one of the groups. -/
theorem keptWith_mem_groups (hgroup : query.groupBy = [key]) {value : Option D}
    (hne : query.keptWith session tables key value ≠ []) :
    query.keptWith session tables key value ∈ query.groups session tables := by
  rw [keptWith_eq] at hne ⊢
  split at hne
  · next hvalue =>
    rw [if_pos hvalue, groups_of_groupBy hgroup]
    exact List.mem_map_of_mem (List.mem_dedup.2 (groupWith_ne_nil_iff.1 hne))
  · exact absurd rfl hne

omit [DecidableEq D] in
/-- The row that a select makes of a group of rows; of no rows it makes none. -/
def rowOfGroup (session : Session D) (query : Select) : List (Environment D) → Row D
  | [] => Row.missing D
  | environment :: rest =>
      query.rowOf (query.items.map fun item =>
        item.expression.groupValue session (environment :: rest))

/-- The rows of a select that groups by one expression: one for each of its values. -/
theorem rows_of_groupBy (hgroup : query.groupBy = [key]) (hdistinct : query.distinct = false) :
    query.rows session tables = (query.keyValues session tables key).dedup.map fun value =>
      query.rowOfGroup session (query.groupWith session tables key value) := by
  rw [rows, tuples, hdistinct, if_neg Bool.false_ne_true, groups_of_groupBy hgroup, List.map_map,
    List.map_map]
  refine List.map_congr_left fun value hvalue => ?_
  have hne := groupWith_ne_nil_iff.2 (List.mem_dedup.1 hvalue)
  obtain ⟨first, rest, hgroup⟩ := List.exists_cons_of_ne_nil hne
  rw [Function.comp_apply, Function.comp_apply, hgroup]
  rfl

/-- The first column of a group has the value by which it is grouped. -/
theorem rowOfGroup_first {inner column link : String} {items : List SelectItem}
    (hitems : query.items = ⟨.column inner column, some link⟩ :: items) {value : Option D}
    (hvalue : value ∈ query.keyValues session tables (.column inner column)) :
    query.rowOfGroup session (query.groupWith session tables (.column inner column) value) link =
      value := by
  obtain ⟨first, rest, hgroup⟩ := List.exists_cons_of_ne_nil (groupWith_ne_nil_iff.2 hvalue)
  have hfirst : first ∈ query.groupWith session tables (.column inner column) value := by
    rw [hgroup]
    exact List.mem_cons_self
  have hsame : first inner column = value := of_decide_eq_true (List.mem_filter.1 hfirst).2
  simp [hgroup, rowOfGroup, rowOf, hitems, Expr.groupValue, Expr.value, hsame]

end Select

/-- A left join with a table that was grouped by the column that it compares adds one row: that of
the group with the value that is looked for, or the missing row if there is none. -/
theorem Join.extend_grouped {query : Select} {inner column link : String}
    {items : List SelectItem}
    (hitems : query.items = ⟨.column inner column, some link⟩ :: items)
    (hgroup : query.groupBy = [.column inner column]) (hdistinct : query.distinct = false)
    {name : String} (hrows : tables.named name = query.rows session tables)
    {outer outerColumn : String} (hne : outer ≠ name) (environment : Environment D) :
    (Join.mk .left (.cte name none)
        [.equals (.column outer outerColumn) (.column name link)]).extend session tables
          environment =
      [environment.bind name (query.rowOfGroup session
        (query.keptWith session tables (.column inner column)
          (environment outer outerColumn)))] := by
  rw [Select.rows_of_groupBy hgroup hdistinct] at hrows
  have hpartners : ((tables.rows (.cte name none)).map
        (environment.bind (TableRef.cte name none).aliasName)).filter
          (holdAll session [.equals (.column outer outerColumn) (.column name link)]) =
      ((query.keyValues session tables (.column inner column)).dedup.filter fun value =>
        Engine.equal (environment outer outerColumn) value = some true).map fun value =>
          environment.bind name (query.rowOfGroup session
            (query.groupWith session tables (.column inner column) value)) := by
    rw [Tables.rows, hrows, List.map_map, List.filter_map]
    congr 1
    refine List.filter_congr fun value hvalue => ?_
    have hlink := Select.rowOfGroup_first hitems (List.mem_dedup.1 hvalue)
    rw [Bool.eq_iff_iff, Function.comp_apply, Function.comp_apply, holdAll_iff,
      List.forall_mem_singleton, truth_equals_column, decide_eq_true_iff, TableRef.aliasName,
      Option.getD_none, environment.bind_of_ne _ hne, environment.bind_self, hlink]
  unfold Join.extend
  simp only [hpartners, filter_equal_dedup, Select.keptWith_eq]
  by_cases hfound : environment outer outerColumn ∈
      query.keyValues session tables (.column inner column)
  · by_cases hvalue : environment outer outerColumn = none
    · simp [hvalue, Select.rowOfGroup, TableRef.aliasName]
    · simp [hvalue, hfound]
  · have hnil : query.groupWith session tables (.column inner column)
        (environment outer outerColumn) = [] :=
      not_not.1 fun hne => hfound (Select.groupWith_ne_nil_iff.1 hne)
    simp [hfound, hnil, Select.rowOfGroup, TableRef.aliasName]

theorem filter_flatMap_of_forall {α β : Type} {l : List α} {f : α → List β} {p : β → Bool}
    {q : α → Bool} (h : ∀ a ∈ l, ∀ b ∈ f a, p b = q a) :
    (l.flatMap f).filter p = (l.filter q).flatMap f := by
  induction l with
  | nil => rfl
  | cons a l ih =>
      obtain ⟨hfirst, hrest⟩ := List.forall_mem_cons.1 h
      rw [List.flatMap_cons, List.filter_append, ih hrest, List.filter_congr hfirst]
      cases hq : q a <;> simp [hq]

/-- The rows of the first table of a `FROM` clause in which a column equals the value that is looked
for. -/
def FromClause.startsWith (tables : Tables D) (source : FromClause) (column : String)
    (value : Option D) : List (Environment D) :=
  ((tables.rows source.base).map ((Environment.unbound D).bind source.base.aliasName)).filter
    fun start => Engine.equal value (start source.base.aliasName column) = some true

/-- Joins keep the row of the first table, so it can be chosen before they are made. -/
theorem Select.keptWith_eq_filter {query : Select} (hnodup : query.source.aliases.Nodup)
    (column : String) (value : Option D) :
    query.keptWith session tables (.column query.source.base.aliasName column) value =
      ((query.source.startsWith tables column value).flatMap
        (extendAll session tables query.source.joins)).filter (holdAll session query.filters) := by
  obtain ⟨hfirst, -⟩ := List.nodup_cons.1 hnodup
  rw [List.map_map] at hfirst
  rw [keptWith, kept, List.filter_comm, FromClause.environments, FromClause.startsWith]
  congr 1
  apply filter_flatMap_of_forall
  intro start _ extended hextended
  rw [Expr.value, extendAll_of_not_mem hextended hfirst]

/-- The inner join of the first table of a `FROM` clause to a row, seen from the clause. -/
theorem FromClause.map_only_extend {source : FromClause} {environment : Environment D}
    (hunbound : ∀ aliasName ∈ source.aliases, environment aliasName = Row.missing D)
    {outer : String} (houter : outer ∉ source.aliases) (outerColumn column : String) :
    ((Join.mk .inner source.base [.equals (.column outer outerColumn)
        (.column source.base.aliasName column)]).extend session tables environment).map
        (Environment.only source.aliases) =
      source.startsWith tables column (environment outer outerColumn) := by
  have hbase : source.base.aliasName ∈ source.aliases := List.mem_cons_self
  have hne : outer ≠ source.base.aliasName := fun hsame => houter (hsame ▸ hbase)
  have hbind : Environment.only source.aliases ∘ environment.bind source.base.aliasName =
      (Environment.unbound D).bind source.base.aliasName := by
    funext row
    rw [Function.comp_apply, Environment.only_bind hbase, Environment.only_eq_unbound hunbound]
  change (((tables.rows source.base).map (environment.bind source.base.aliasName)).filter
    (holdAll session _)).map _ = _
  rw [startsWith, List.filter_map, List.filter_map, List.map_map, hbind]
  congr 1
  refine List.filter_congr fun row _ => ?_
  rw [Bool.eq_iff_iff, Function.comp_apply, Function.comp_apply, holdAll_iff,
    List.forall_mem_singleton, truth_equals_column, decide_eq_true_iff,
    environment.bind_of_ne _ hne, environment.bind_self, Environment.bind_self]

/-- The rows of a select in which a column of its first table equals a value of another row are
those that an inner join of its tables to that row puts beside it. -/
theorem Select.keptWith_eq_map_only {query : Select} (hnodup : query.source.aliases.Nodup)
    (hjoins : ∀ join ∈ query.source.joins, ∀ e ∈ join.conditions, ∀ c ∈ e.columns,
      c.1 ∈ query.source.aliases)
    (hfilters : ∀ e ∈ query.filters, ∀ c ∈ e.columns, c.1 ∈ query.source.aliases)
    {environment : Environment D}
    (hunbound : ∀ aliasName ∈ query.source.aliases, environment aliasName = Row.missing D)
    {outer : String} (houter : outer ∉ query.source.aliases) (outerColumn column : String) :
    query.keptWith session tables (.column query.source.base.aliasName column)
        (environment outer outerColumn) =
      ((extendAll session tables
          (⟨.inner, query.source.base, [.equals (.column outer outerColumn)
            (.column query.source.base.aliasName column)]⟩ :: query.source.joins)
          environment).filter (holdAll session query.filters)).map
        (Environment.only query.source.aliases) := by
  have hinside : ∀ join ∈ query.source.joins, join.table.aliasName ∈ query.source.aliases ∧
      ∀ e ∈ join.conditions, ∀ c ∈ e.columns, c.1 ∈ query.source.aliases := fun join hjoin =>
    ⟨List.mem_cons_of_mem _ (List.mem_map_of_mem (List.mem_map_of_mem hjoin)), hjoins join hjoin⟩
  have hholds : holdAll session query.filters ∘ Environment.only query.source.aliases =
      holdAll session query.filters := funext fun extended => holdAll_only hfilters extended
  rw [keptWith_eq_filter hnodup, ← FromClause.map_only_extend hunbound houter, extendAll,
    List.flatMap_map]
  simp only [extendAll_only hinside]
  rw [← List.map_flatMap, List.filter_map, hholds]

/-- The stored tables stay as they are. -/
theorem CtesDenote.stored_eq {start last : Tables D} {ctes : List Cte}
    (h : CtesDenote session start ctes last) : last.stored = start.stored := by
  induction h with
  | nil => rfl
  | cons _ _ ih => exact ih

theorem CtesDenote.named_of_not_mem {start last : Tables D} {ctes : List Cte}
    (h : CtesDenote session start ctes last) {name : String} (hname : name ∉ ctes.map Cte.name) :
    last.named name = start.named name := by
  induction h with
  | nil => rfl
  | cons _ _ ih =>
      rw [List.map_cons, List.mem_cons, not_or] at hname
      rw [ih hname.2]
      exact if_neg hname.1

/-- A common table expression keeps the rows that it had when it was computed. -/
theorem CtesDenote.exists_denotes {start last : Tables D} {ctes : List Cte}
    (h : CtesDenote session start ctes last) (hnodup : (ctes.map Cte.name).Nodup) {cte : Cte}
    (hcte : cte ∈ ctes) :
    ∃ seen : Tables D, seen.stored = start.stored ∧
      cte.content.Denotes session seen cte.name (last.named cte.name) := by
  induction h with
  | nil => exact absurd hcte List.not_mem_nil
  | @cons tables last first ctes rows hfirst hrest ih =>
      obtain ⟨hnew, hnodup⟩ := List.nodup_cons.1 hnodup
      rcases List.mem_cons.1 hcte with rfl | hcte
      · refine ⟨tables, rfl, ?_⟩
        have hnamed : last.named cte.name = rows := by
          rw [hrest.named_of_not_mem hnew]
          exact if_pos rfl
        rwa [hnamed]
      · exact ih hnodup hcte

/-- Common table expressions of which none is recursive always have rows. -/
theorem CtesDenote.exists_of_plain {ctes : List Cte} (h : ∀ cte ∈ ctes, cte.plain?.isSome)
    (start : Tables D) : ∃ last, CtesDenote session start ctes last := by
  induction ctes generalizing start with
  | nil => exact ⟨start, .nil start⟩
  | cons cte ctes ih =>
      obtain ⟨hfirst, hrest⟩ := List.forall_mem_cons.1 h
      obtain ⟨name, content, isRecursive⟩ := cte
      cases content with
      | select query =>
          obtain ⟨last, hlast⟩ := ih hrest (start.naming name (query.rows session start))
          exact ⟨last, .cons (.select query) hlast⟩
      | recursive anchor step combinator => exact absurd hfirst (by simp [Cte.plain?])

/-- A select sees of the tables only the rows that it reads. -/
theorem Select.rows_congr {query : Select}
    (h : ∀ table ∈ query.source.tables, tables.rows table = others.rows table) :
    query.rows session tables = query.rows session others := by
  have hbase := h _ List.mem_cons_self
  have hjoins : ∀ join ∈ query.source.joins, tables.rows join.table = others.rows join.table :=
    fun join hjoin => h _ (List.mem_cons_of_mem _ (List.mem_map_of_mem hjoin))
  have henvironments : query.source.environments session tables =
      query.source.environments session others := by
    rw [FromClause.environments, FromClause.environments, hbase]
    exact List.flatMap_congr fun environment _ => extendAll_congr hjoins environment
  simp only [rows, tuples, groups, kept, henvironments]

omit [DecidableEq D] in
/-- A table that needs no common table expression is read from what is stored. -/
theorem TableRef.Among.rows_eq {table : TableRef} (h : table.Among [])
    (hstored : tables.stored = others.stored) : tables.rows table = others.rows table := by
  cases table with
  | table => exact congrFun (congrFun hstored _) _
  | cte =>
      obtain ⟨-, cte, hcte, -⟩ := h
      exact absurd hcte List.not_mem_nil

end TraversalSql.Sql
