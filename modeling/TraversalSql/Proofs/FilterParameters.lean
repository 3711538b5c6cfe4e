import TraversalSql.Proofs.FilterPlacement

/-!
The parameters of the conditions of filters.  A condition has the parameters of its filter and no
others, and it reads a parameter as a list exactly if the operator of the filter takes a collection.
-/

namespace TraversalSql

namespace Sql

namespace Expr

/-- The expressions directly below an expression. -/
def operands : Expr → List Expr
  | .literal _ => []
  | .raw _ => []
  | .parameter _ => []
  | .aggregate _ arguments => arguments
  | .column _ _ => []
  | .apply _ operands => operands
  | .castToText inner => [inner]
  | .castToPath inner => [inner]
  | .concat parts => parts

/-- An expression occurs in another one. -/
inductive OccursIn : Expr → Expr → Prop
  | here (e : Expr) : OccursIn e e
  | inside {part operand e : Expr} (hoperand : operand ∈ e.operands)
      (h : OccursIn part operand) : OccursIn part e

/-- A parameter is the right operand of a membership test somewhere in an expression. -/
def ReadsList (e : Expr) (name : String) : Prop :=
  ∃ operator left, (operator = .inList ∨ operator = .notInList) ∧
    (Expr.apply operator [left, .parameter name]).OccursIn e

theorem occursIn_iff {part e : Expr} :
    part.OccursIn e ↔ part = e ∨ ∃ operand ∈ e.operands, part.OccursIn operand := by
  constructor
  · intro h
    cases h with
    | here => exact .inl rfl
    | inside hoperand h => exact .inr ⟨_, hoperand, h⟩
  · rintro (rfl | ⟨operand, hoperand, h⟩)
    · exact .here part
    · exact .inside hoperand h

theorem occursIn_column_iff {part : Expr} {table name : String} :
    part.OccursIn (.column table name) ↔ part = .column table name := by
  simp [occursIn_iff (e := .column table name), operands]

theorem occursIn_parameter_iff {part : Expr} {name : String} :
    part.OccursIn (.parameter name) ↔ part = .parameter name := by
  simp [occursIn_iff (e := .parameter name), operands]

theorem occursIn_literal_iff {part : Expr} {value : Literal} :
    part.OccursIn (.literal value) ↔ part = .literal value := by
  simp [occursIn_iff (e := .literal value), operands]

theorem occursIn_apply_iff {part : Expr} {operator : Operator} {es : List Expr} :
    part.OccursIn (.apply operator es) ↔
      part = .apply operator es ∨ ∃ operand ∈ es, part.OccursIn operand :=
  occursIn_iff

/-- A membership test in the application of another operator is one in an operand. -/
theorem OccursIn.exists_operand {test operator : Operator} {es operands : List Expr}
    (h : (Expr.apply test es).OccursIn (.apply operator operands)) (hne : test ≠ operator) :
    ∃ operand ∈ operands, (Expr.apply test es).OccursIn operand := by
  rcases occursIn_apply_iff.1 h with hsame | hinside
  · exact absurd (Expr.apply.inj hsame).1 hne
  · exact hinside

theorem occursIn_concat_iff {part : Expr} {es : List Expr} :
    part.OccursIn (.concat es) ↔ part = .concat es ∨ ∃ operand ∈ es, part.OccursIn operand :=
  occursIn_iff

theorem OccursIn.trans {part middle e : Expr} (h : part.OccursIn middle) (he : middle.OccursIn e) :
    part.OccursIn e := by
  induction he with
  | here => exact h
  | inside hoperand _ ih => exact .inside hoperand ih

theorem mem_parameters_of_operand {name : String} {operand e : Expr} (h : operand ∈ e.operands)
    (hname : name ∈ operand.parameters) : name ∈ e.parameters := by
  cases e with
  | literal | raw | parameter | column => exact absurd h List.not_mem_nil
  | castToText | castToPath =>
      obtain rfl := List.mem_singleton.1 h
      rwa [parameters]
  | aggregate | apply | concat =>
      rw [parameters, parametersOfAll_eq_flatMap]
      exact List.mem_flatMap.2 ⟨operand, h, hname⟩

mutual

theorem occursIn_of_mem_parameters {name : String} (e : Expr) (h : name ∈ e.parameters) :
    (Expr.parameter name).OccursIn e := by
  match e with
  | .literal _ | .raw _ | .column _ _ => simp [parameters] at h
  | .parameter other =>
      rw [parameters, List.mem_singleton] at h
      exact h ▸ .here _
  | .castToText inner | .castToPath inner =>
      rw [parameters] at h
      exact .inside (List.mem_singleton.2 rfl) (occursIn_of_mem_parameters inner h)
  | .aggregate _ es | .apply _ es | .concat es =>
      rw [parameters] at h
      obtain ⟨operand, hoperand, hoccurs⟩ := exists_occursIn_of_mem_parametersOfAll es h
      exact .inside hoperand hoccurs

theorem exists_occursIn_of_mem_parametersOfAll {name : String} (es : List Expr)
    (h : name ∈ parametersOfAll es) : ∃ e ∈ es, (Expr.parameter name).OccursIn e := by
  match es with
  | [] => simp [parametersOfAll] at h
  | e :: es =>
      rw [parametersOfAll, List.mem_append] at h
      rcases h with h | h
      · exact ⟨e, List.mem_cons_self, occursIn_of_mem_parameters e h⟩
      · obtain ⟨operand, hoperand, hoccurs⟩ := exists_occursIn_of_mem_parametersOfAll es h
        exact ⟨operand, List.mem_cons_of_mem e hoperand, hoccurs⟩

end

/-- The parameters of an expression are those that occur in it. -/
theorem mem_parameters_iff {name : String} {e : Expr} :
    name ∈ e.parameters ↔ (Expr.parameter name).OccursIn e := by
  refine ⟨occursIn_of_mem_parameters e, fun h => ?_⟩
  generalize hpart : Expr.parameter name = part at h
  induction h with
  | here =>
      rw [← hpart, parameters]
      exact List.mem_singleton_self name
  | inside hoperand _ ih => exact mem_parameters_of_operand hoperand ih

theorem ReadsList.mem_parameters {name : String} {e : Expr} (h : e.ReadsList name) :
    name ∈ e.parameters := by
  obtain ⟨operator, left, -, hoccurs⟩ := h
  have hright : (Expr.parameter name).OccursIn (.apply operator [left, .parameter name]) :=
    .inside (List.mem_cons_of_mem _ List.mem_cons_self) (.here _)
  exact mem_parameters_iff.2 (hright.trans hoccurs)

end Expr

end Sql

namespace FilterOperator

variable {operator : FilterOperator} {column comparison : Sql.Expr} {values : List Sql.Expr}

/-- What a comparison looks like: a test of two operands, which is one of membership exactly if the
operator takes a collection, a match with a pattern, or a range. -/
theorem comparison?_cases (h : operator.comparison? column values = some comparison) :
    (∃ test value, values = [value] ∧ comparison = .apply test [column, value] ∧
      (test = .inList ∨ test = .notInList ↔ operator.cardinality = .many)) ∨
    (∃ value leading trailing, values = [value] ∧
      comparison = .apply .like [column, .concat (leading ++ [value] ++ trailing)] ∧
      (∀ e ∈ leading ++ trailing, e = .string "%") ∧ operator.cardinality ≠ .many) ∨
    ∃ lower upper, values = [lower, upper] ∧ comparison = .apply .between [column, lower, upper] ∧
      operator.cardinality ≠ .many := by
  match values with
  | [] | _ :: _ :: _ :: _ => cases operator <;> simp [comparison?, shape] at h
  | [value] =>
      cases operator <;> simp only [comparison?, shape, Option.some.injEq, reduceCtorEq] at h
      case hasSubstring | startsWith | endsWith =>
        exact .inr (.inl ⟨value, _, _, rfl, h.symm, by simp, by decide⟩)
      all_goals exact .inl ⟨_, value, rfl, h.symm, by decide⟩
  | [lower, upper] =>
      cases operator <;> simp only [comparison?, shape, Option.some.injEq, reduceCtorEq] at h
      exact .inr (.inr ⟨lower, upper, rfl, h.symm, by decide⟩)

/-- A comparison has the parameters of its column and of its values. -/
theorem parameters_of_comparison? (h : operator.comparison? column values = some comparison) :
    comparison.parameters = column.parameters ++ values.flatMap Sql.Expr.parameters := by
  rcases comparison?_cases h with ⟨test, value, rfl, rfl, -⟩ |
    ⟨value, leading, trailing, rfl, rfl, hwild, -⟩ | ⟨lower, upper, rfl, rfl, -⟩
  · simp [Sql.Expr.parameters, Sql.Expr.parametersOfAll]
  · have hfixed : ∀ wildcards ⊆ leading ++ trailing,
        wildcards.flatMap Sql.Expr.parameters = [] := by
      intro wildcards hsub
      rw [List.flatMap_eq_nil_iff]
      intro e he
      rw [hwild e (hsub he)]
      rfl
    have hleading := hfixed leading (List.subset_append_left _ _)
    have htrailing := hfixed trailing (List.subset_append_right _ _)
    simp [Sql.Expr.parameters, Sql.Expr.parametersOfAll_eq_flatMap, hleading, htrailing]
  · simp [Sql.Expr.parameters, Sql.Expr.parametersOfAll]

/-- A comparison is a membership test only if its operator takes a collection. -/
theorem cardinality_of_occursIn (h : operator.comparison? column values = some comparison)
    (hleaves : ∀ e ∈ column :: values, ∀ op es, ¬ (Sql.Expr.apply op es).OccursIn e)
    {test : Sql.Operator} (htest : test = .inList ∨ test = .notInList) {es : List Sql.Expr}
    (hoccurs : (Sql.Expr.apply test es).OccursIn comparison) : operator.cardinality = .many := by
  rcases comparison?_cases h with ⟨op, value, rfl, rfl, hmany⟩ |
    ⟨value, leading, trailing, rfl, rfl, hwild, -⟩ | ⟨lower, upper, rfl, rfl, -⟩
  · by_cases hsame : test = op
    · exact hmany.1 (hsame ▸ htest)
    · obtain ⟨operand, hoperand, hinside⟩ := hoccurs.exists_operand hsame
      exact absurd hinside (hleaves operand hoperand test es)
  · obtain ⟨operand, hoperand, hinside⟩ := hoccurs.exists_operand (by rintro rfl; simp at htest)
    rcases List.mem_cons.1 hoperand with rfl | hpattern
    · exact absurd hinside (hleaves operand List.mem_cons_self test es)
    · rw [List.mem_singleton.1 hpattern, Sql.Expr.occursIn_concat_iff] at hinside
      obtain hsame | ⟨part, hpart, hinside⟩ := hinside
      · exact absurd hsame (by simp)
      · by_cases hvalue : part = value
        · exact absurd hinside (hleaves part (by simp [hvalue]) test es)
        · have hwildcard : part ∈ leading ++ trailing := by simpa [hvalue] using hpart
          rw [hwild part hwildcard, Sql.Expr.string, Sql.Expr.occursIn_literal_iff] at hinside
          exact absurd hinside (by simp)
  · obtain ⟨operand, hoperand, hinside⟩ := hoccurs.exists_operand (by rintro rfl; simp at htest)
    exact absurd hinside (hleaves operand hoperand test es)

end FilterOperator

theorem parameters_guarded {guards : List Sql.Expr} {comparison : Sql.Expr}
    (h : ∀ guard ∈ guards, ∃ table name, guard = .isNull (.column table name)) :
    (guarded guards comparison).parameters = comparison.parameters := by
  have hguards : guards.flatMap Sql.Expr.parameters = [] := by
    rw [List.flatMap_eq_nil_iff]
    intro guard hguard
    obtain ⟨table, name, rfl⟩ := h guard hguard
    rfl
  unfold guarded
  split
  · rfl
  · rw [Sql.Expr.parameters, Sql.Expr.parametersOfAll_eq_flatMap, List.flatMap_append, hguards,
      List.flatMap_singleton, List.nil_append]

/-- A membership test behind tests for what may be missing is one in the comparison. -/
theorem occursIn_guarded_iff {guards : List Sql.Expr} {comparison : Sql.Expr}
    (h : ∀ guard ∈ guards, ∃ table name, guard = .isNull (.column table name))
    {test : Sql.Operator} (htest : test = .inList ∨ test = .notInList) {es : List Sql.Expr} :
    (Sql.Expr.apply test es).OccursIn (guarded guards comparison) ↔
      (Sql.Expr.apply test es).OccursIn comparison := by
  unfold guarded
  split
  · rfl
  · constructor
    · intro hoccurs
      obtain ⟨operand, hoperand, hinside⟩ := hoccurs.exists_operand (by rintro rfl; simp at htest)
      rcases List.mem_append.1 hoperand with hguard | hlast
      · obtain ⟨table, name, rfl⟩ := h operand hguard
        obtain ⟨inner, hinner, hinside⟩ := hinside.exists_operand (by rintro rfl; simp at htest)
        rw [List.mem_singleton.1 hinner, Sql.Expr.occursIn_column_iff] at hinside
        exact absurd hinside (by simp)
      · rwa [List.mem_singleton.1 hlast] at hinside
    · exact .inside (List.mem_append_right _ List.mem_cons_self)

namespace Query.FilterRequest

variable {request : FilterRequest} {schema : Schema} {members : List Member}
  {selects : List Sql.Select} {place : Sql.Select × Sql.Expr}

/-- A filter compares with a collection. -/
def TakesCollection (request : FilterRequest) : Prop :=
  ∃ operator, FilterOperator.ofName? request.operator = some operator ∧
    operator.cardinality = .many

theorem TagRead.exists_column {select : Sql.Select} {tag : Option Operand}
    (h : request.TagRead schema members select tag) {operand : Operand} (hoperand : operand ∈ tag) :
    ∃ table name, operand.column = .column table name := by
  unfold TagRead at h
  split at h
  · exact absurd (h ▸ hoperand) (by simp)
  · obtain ⟨m, -, -, -, column, nullable, -, rfl⟩ := h
    obtain rfl := Option.some.inj hoperand
    exact ⟨m.aliasName, column, rfl⟩

/-- The condition of a filter compares a column with other columns and with the parameters of the
filter, behind tests of columns. -/
theorem StandsAt.exists_comparison (h : request.StandsAt schema members selects place) :
    ∃ operator table name guards tagged comparison,
      FilterOperator.ofName? request.operator = some operator ∧
      (∀ guard ∈ guards, ∃ table name, guard = .isNull (.column table name)) ∧
      (∀ e ∈ tagged, ∃ table name, e = .column table name) ∧
      operator.comparison? (.column table name) (tagged ++ request.params.map .parameter) =
        some comparison ∧
      place.2 = guarded guards comparison := by
  obtain ⟨m, -, -, -, -, operator, column, nullable, tag, comparison, hoperator, -, htag,
    hcomparison, hplace⟩ := h
  refine ⟨operator, m.aliasName, column, _, _, comparison, hoperator, fun guard hguard => ?_,
    fun e he => ?_, hcomparison, hplace⟩
  · obtain ⟨operand, rfl | hoperand, rfl⟩ := Operand.exists_of_mem_guardsOf hguard
    · exact ⟨m.aliasName, column, rfl⟩
    · obtain ⟨table, name, htable⟩ := htag.exists_column hoperand
      exact ⟨table, name, by rw [htable]⟩
  · obtain ⟨operand, hoperand, rfl⟩ := Option.map_eq_some_iff.1 (Option.mem_toList.1 he)
    exact htag.exists_column hoperand

/-- A condition has the parameters of its filter. -/
theorem StandsAt.parameters_eq (h : request.StandsAt schema members selects place) :
    place.2.parameters = request.params := by
  obtain ⟨operator, table, name, guards, tagged, comparison, -, hguards, htagged, hcomparison,
    hplace⟩ := h.exists_comparison
  have hcolumns : tagged.flatMap Sql.Expr.parameters = [] := by
    rw [List.flatMap_eq_nil_iff]
    intro e he
    obtain ⟨table, name, rfl⟩ := htagged e he
    rfl
  rw [hplace, parameters_guarded hguards, FilterOperator.parameters_of_comparison? hcomparison,
    List.flatMap_append, hcolumns, List.flatMap_map]
  simp [Sql.Expr.parameters]

/-- A condition reads a parameter as a list exactly if its filter compares with a collection and has
the parameter. -/
theorem StandsAt.readsList_iff (h : request.StandsAt schema members selects place)
    {parameter : String} :
    place.2.ReadsList parameter ↔ request.TakesCollection ∧ parameter ∈ request.params := by
  have hparameters := h.parameters_eq
  obtain ⟨operator, table, name, guards, tagged, comparison, hoperator, hguards, htagged,
    hcomparison, hplace⟩ := h.exists_comparison
  constructor
  · intro hlist
    refine ⟨⟨operator, hoperator, ?_⟩, hparameters ▸ hlist.mem_parameters⟩
    obtain ⟨test, left, htest, hoccurs⟩ := hlist
    rw [hplace, occursIn_guarded_iff hguards htest] at hoccurs
    refine FilterOperator.cardinality_of_occursIn hcomparison ?_ htest hoccurs
    intro e he op es
    rcases List.mem_cons.1 he with rfl | he
    · simp [Sql.Expr.occursIn_column_iff]
    · rcases List.mem_append.1 he with he | he
      · obtain ⟨table, name, rfl⟩ := htagged e he
        simp [Sql.Expr.occursIn_column_iff]
      · obtain ⟨parameter, -, rfl⟩ := List.mem_map.1 he
        simp [Sql.Expr.occursIn_parameter_iff]
  · rintro ⟨⟨other, hother, hmany⟩, hparameter⟩
    obtain rfl := Option.some.inj (hother.symm.trans hoperator)
    rcases FilterOperator.comparison?_cases hcomparison with ⟨test, value, hvalues, rfl, htest⟩ |
      ⟨_, _, _, _, _, _, hsingle⟩ | ⟨_, _, _, _, hdual⟩
    · -- The filter has one value, and the parameter is one of its values.
      have hvalue : value = .parameter parameter := by
        have hmem : Sql.Expr.parameter parameter ∈ [value] :=
          hvalues ▸ List.mem_append_right _ (List.mem_map_of_mem hparameter)
        exact (List.mem_singleton.1 hmem).symm
      refine ⟨test, .column table name, htest.2 hmany, ?_⟩
      rw [hplace, occursIn_guarded_iff hguards (htest.2 hmany), hvalue]
      exact .here _
    · exact absurd hmany hsingle
    · exact absurd hmany hdual

end Query.FilterRequest

end TraversalSql
