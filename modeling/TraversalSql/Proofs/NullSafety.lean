import TraversalSql.Proofs.FilterParameters
import TraversalSql.Proofs.Matching

/-!
What the condition of a filter says when values are missing.  A filter has a condition exactly if it
has as many operands as its operator takes.  The condition is true where a column that may be missing
is missing, be it that of the filter or that of its tag; otherwise it is as true as the bare
comparison.
-/

namespace TraversalSql

open Outcome

namespace Sql

variable {D : Type} [DecidableEq D] {session : Session D} {environment : Environment D}

/-- What is certainly false is no alternative. -/
theorem Truth.any_append_singleton {truths : List Truth} (h : ∀ truth ∈ truths, truth = some false)
    (last : Truth) : Truth.any (truths ++ [last]) = last := by
  have hnot : ∀ other, other ≠ some false → (other ∈ truths ++ [last] ↔ other = last) := by
    intro other hother
    rw [List.mem_append, List.mem_singleton, or_iff_right]
    exact fun hmem => hother (h other hmem)
  unfold any
  simp only [hnot (some true) (by simp), hnot none (by simp)]
  rcases last with _ | _ | _ <;> rfl

namespace Expr

theorem truths_eq_map (es : List Expr) :
    truths session environment es = es.map (truth session environment) := by
  induction es with
  | nil => rw [truths, List.map_nil]
  | cons e es ih => rw [truths, ih, List.map_cons]

end Expr

end Sql

section

variable {D : Type} [DecidableEq D] {session : Sql.Session D} {environment : Sql.Environment D}
  {guards : List Sql.Expr} {comparison : Sql.Expr}

/-- A test that succeeds makes a condition true. -/
theorem truth_guarded_of_mem {guard : Sql.Expr} (hmem : guard ∈ guards)
    (h : guard.truth session environment = some true) :
    (guarded guards comparison).truth session environment = some true := by
  have hsome : some true ∈ (guards ++ [comparison]).map (Sql.Expr.truth session environment) :=
    List.mem_map.2 ⟨guard, List.mem_append_left _ hmem, h⟩
  rw [guarded, if_neg (by simpa using List.ne_nil_of_mem hmem), Sql.Expr.truth,
    Sql.Expr.truths_eq_map]
  exact if_pos hsome

/-- Where all tests fail, a condition is as true as its comparison. -/
theorem truth_guarded_of_forall
    (h : ∀ guard ∈ guards, guard.truth session environment = some false) :
    (guarded guards comparison).truth session environment =
      comparison.truth session environment := by
  unfold guarded
  split
  · rfl
  · rw [Sql.Expr.truth, Sql.Expr.truths_eq_map, List.map_append]
    exact Sql.Truth.any_append_singleton (List.forall_mem_map.2 h) _

end

/-- A column of a table under an alias, as the operand of a filter. -/
structure ColumnOperand where
  table : String
  name : String
  /-- Whether the vertex of the column may be missing. -/
  nullable : Bool
deriving DecidableEq, Repr

namespace ColumnOperand

def operand (column : ColumnOperand) : Operand := ⟨.column column.table column.name, column.nullable⟩

variable {D : Type}

/-- The value of the column. -/
def value (column : ColumnOperand) (environment : Sql.Environment D) : Option D :=
  environment column.table column.name

/-- The column may be missing, and is. -/
def IsMissing (column : ColumnOperand) (environment : Sql.Environment D) : Prop :=
  column.nullable ∧ column.value environment = none

theorem truth_isNull [DecidableEq D] (column : ColumnOperand) (session : Sql.Session D)
    (environment : Sql.Environment D) :
    (Sql.Expr.isNull (.column column.table column.name)).truth session environment =
      some (column.value environment).isNone := by
  simp [Sql.Expr.isNull, Sql.Expr.truth_apply, Sql.Engine.test, Sql.Expr.compared, Sql.Expr.value,
    value]

end ColumnOperand

/-- The tests of a filter ask for each column that may be missing whether it is. -/
theorem Operand.guardsOf_operand (column : ColumnOperand) (tag : Option ColumnOperand) :
    column.operand.guardsOf (tag.map ColumnOperand.operand) =
      ((column :: tag.toList).filter ColumnOperand.nullable).map fun c =>
        .isNull (.column c.table c.name) := by
  obtain ⟨table, name, _ | _⟩ := column <;> rcases tag with _ | ⟨other, field, _ | _⟩ <;> rfl

namespace Predicate

/-- The number of operands that a filter brings: its parameters, and one more for a tag. -/
def operandCount (predicate : Predicate) : Nat :=
  predicate.params.length + if predicate.tag.isSome then 1 else 0

/-- A column is offered for the tag of a filter, if it has one. -/
def TagOffered (predicate : Predicate) (offered : Option ColumnOperand) : Prop :=
  predicate.tag.isSome → offered.isSome

/-- The column of the tag of a filter.  What is offered to a filter without a tag is not used. -/
def tagColumn (predicate : Predicate) (offered : Option ColumnOperand) : Option ColumnOperand :=
  if predicate.tag.isSome then offered else none

/-- The condition of a filter on a column, with a column that is offered for its tag. -/
def columnCondition (predicate : Predicate) (column : ColumnOperand)
    (offered : Option ColumnOperand) : Except EmitError Sql.Expr :=
  predicate.condition column.operand (offered.map ColumnOperand.operand)

variable {predicate : Predicate} {column : ColumnOperand} {offered : Option ColumnOperand}

theorem tagOperand_of_offered (h : predicate.TagOffered offered) :
    predicate.tagOperand (offered.map ColumnOperand.operand) =
      .ok ((predicate.tagColumn offered).map ColumnOperand.operand) := by
  unfold tagOperand tagColumn
  cases htag : predicate.tag with
  | none => simp
  | some tag =>
      obtain ⟨operand, rfl⟩ := Option.isSome_iff_exists.1 (h (by rw [htag]; rfl))
      simp

theorem tagOperand_of_not_offered (h : ¬ predicate.TagOffered offered) :
    predicate.tagOperand (offered.map ColumnOperand.operand) =
      .error (.missingTagOperand predicate.field) := by
  unfold tagOperand
  cases htag : predicate.tag with
  | none => exact absurd (fun hsome => by simp [htag] at hsome) h
  | some tag =>
      cases offered with
      | none => rfl
      | some operand => exact absurd (fun _ => rfl) h

theorem length_values (h : predicate.TagOffered offered) :
    (predicate.values ((predicate.tagColumn offered).map ColumnOperand.operand)).length =
      predicate.operandCount := by
  unfold values tagColumn operandCount
  by_cases htag : predicate.tag.isSome
  · obtain ⟨operand, rfl⟩ := Option.isSome_iff_exists.1 (h htag)
    simp [htag]
  · simp [htag]

/-- A filter whose tag has no column has no condition. -/
theorem columnCondition_of_not_offered (h : ¬ predicate.TagOffered offered) :
    predicate.columnCondition column offered = .error (.missingTagOperand predicate.field) := by
  unfold columnCondition condition
  rw [tagOperand_of_not_offered h]
  rfl

/-- A filter with too few or too many operands has no condition. -/
theorem columnCondition_of_count_ne (h : predicate.TagOffered offered)
    (hcount : predicate.operandCount ≠ predicate.operator.cardinality.operands) :
    predicate.columnCondition column offered =
      .error (.wrongParameterCount predicate.operator.name predicate.field
        predicate.operator.cardinality.operands predicate.operandCount) := by
  unfold columnCondition condition
  rw [tagOperand_of_offered h, ok_bind]
  simp only [length_values h]
  rw [if_pos hcount]
  rfl

theorem operands_of_columnCondition {condition : Sql.Expr}
    (h : predicate.columnCondition column offered = .ok condition) :
    predicate.TagOffered offered ∧
      predicate.operandCount = predicate.operator.cardinality.operands := by
  have hoffered : predicate.TagOffered offered := by
    by_contra hnot
    rw [columnCondition_of_not_offered hnot] at h
    exact absurd h (by simp)
  refine ⟨hoffered, ?_⟩
  by_contra hcount
  rw [columnCondition_of_count_ne hoffered hcount] at h
  exact absurd h (by simp)

/-- Any other filter has one: a comparison behind the tests for what may be missing. -/
theorem exists_columnCondition (column : ColumnOperand) (h : predicate.TagOffered offered)
    (hcount : predicate.operandCount = predicate.operator.cardinality.operands) :
    ∃ comparison,
      predicate.operator.comparison? (.column column.table column.name)
        (predicate.values ((predicate.tagColumn offered).map ColumnOperand.operand)) =
          some comparison ∧
      predicate.columnCondition column offered =
        .ok (guarded (column.operand.guardsOf
          ((predicate.tagColumn offered).map ColumnOperand.operand)) comparison) := by
  have hsome : (predicate.operator.comparison? (.column column.table column.name)
      (predicate.values ((predicate.tagColumn offered).map ColumnOperand.operand))).isSome :=
    FilterOperator.comparison?_isSome_iff.2 ((length_values h).trans hcount)
  obtain ⟨comparison, hcomparison⟩ := Option.isSome_iff_exists.1 hsome
  exact ⟨comparison, hcomparison,
    condition_eq_ok_iff.2 ⟨_, comparison, tagOperand_of_offered h, hcomparison, rfl⟩⟩

/-- What a filter compares its column with: the value of its tag and its parameters. -/
theorem map_compared_values {D : Type} (session : Sql.Session D) (environment : Sql.Environment D)
    (tag : Option ColumnOperand) :
    (predicate.values (tag.map ColumnOperand.operand)).map
        (Sql.Expr.compared session environment) =
      tag.toList.map (fun c => ⟨c.value environment, [c.value environment]⟩) ++
        predicate.params.map session.operand := by
  unfold values
  rw [List.map_append, List.map_map]
  congr 1
  cases tag <;> simp [ColumnOperand.operand, ColumnOperand.value, Sql.Expr.compared, Sql.Expr.value]

theorem flatMap_parameters_values (tag : Option ColumnOperand) :
    (predicate.values (tag.map ColumnOperand.operand)).flatMap Sql.Expr.parameters =
      predicate.params := by
  unfold values
  cases tag <;> simp [ColumnOperand.operand, Sql.Expr.parameters, List.flatMap_map]

section Guarded

variable {tag : Option ColumnOperand} {comparison : Sql.Expr}
  (hcomparison : predicate.operator.comparison? (.column column.table column.name)
    (predicate.values (tag.map ColumnOperand.operand)) = some comparison)
include hcomparison

/-- A condition has the parameters of its filter. -/
theorem parameters_guardsOf :
    (guarded (column.operand.guardsOf (tag.map ColumnOperand.operand)) comparison).parameters =
      predicate.params := by
  rw [parameters_guarded, FilterOperator.parameters_of_comparison? hcomparison,
    flatMap_parameters_values, Sql.Expr.parameters, List.nil_append]
  intro guard hguard
  rw [Operand.guardsOf_operand] at hguard
  obtain ⟨c, -, rfl⟩ := List.mem_map.1 hguard
  exact ⟨_, _, rfl⟩

variable {D : Type} [DecidableEq D] (session : Sql.Session D) {environment : Sql.Environment D}

omit hcomparison in
/-- A condition is true where a column that may be missing is. -/
theorem truth_guardsOf_of_isMissing {c : ColumnOperand} (hc : c ∈ column :: tag.toList)
    (h : c.IsMissing environment) :
    (guarded (column.operand.guardsOf (tag.map ColumnOperand.operand)) comparison).truth session
      environment = some true := by
  rw [Operand.guardsOf_operand]
  refine truth_guarded_of_mem (List.mem_map_of_mem (List.mem_filter.2 ⟨hc, h.1⟩)) ?_
  rw [c.truth_isNull, h.2, Option.isNone_none]

/-- Elsewhere it is as true as the comparison of the column with the tag and the parameters. -/
theorem truth_guardsOf_of_forall (h : ∀ c ∈ column :: tag.toList, ¬ c.IsMissing environment) :
    (guarded (column.operand.guardsOf (tag.map ColumnOperand.operand)) comparison).truth session
        environment =
      predicate.operator.test session.toEngine (column.value environment)
        (tag.toList.map (fun c => ⟨c.value environment, [c.value environment]⟩) ++
          predicate.params.map session.operand) := by
  rw [Operand.guardsOf_operand, truth_guarded_of_forall, truth_comparison hcomparison,
    map_compared_values]
  · rfl
  · intro guard hguard
    obtain ⟨c, hc, rfl⟩ := List.mem_map.1 hguard
    obtain ⟨hmem, hnullable⟩ := List.mem_filter.1 hc
    have hvalue : c.value environment ≠ none := fun hnone => h c hmem ⟨hnullable, hnone⟩
    rw [c.truth_isNull, Option.isNone_eq_false_iff.2 (Option.isSome_iff_ne_none.2 hvalue)]

end Guarded

/-- Conditions have as many operands as their operators take, and are safe where values are missing.
A filter on a column, with a column that is offered for its tag, has a condition exactly if a tag has
its column and the filter brings as many operands as its operator takes; otherwise the error says
which of the two is wrong.  A condition has the parameters of its filter, in order.  It is true where
the column of the filter or of its tag may be missing and is; elsewhere it is as true as the
comparison of the column with the tag and the parameters in order. -/
theorem null_safe_condition (predicate : Predicate) (column : ColumnOperand)
    (offered : Option ColumnOperand) :
    ((∃ condition, predicate.columnCondition column offered = .ok condition) ↔
      predicate.TagOffered offered ∧
        predicate.operandCount = predicate.operator.cardinality.operands) ∧
    (¬ predicate.TagOffered offered → predicate.columnCondition column offered =
      .error (.missingTagOperand predicate.field)) ∧
    (predicate.TagOffered offered →
      predicate.operandCount ≠ predicate.operator.cardinality.operands →
        predicate.columnCondition column offered =
          .error (.wrongParameterCount predicate.operator.name predicate.field
            predicate.operator.cardinality.operands predicate.operandCount)) ∧
    ∀ condition, predicate.columnCondition column offered = .ok condition →
      condition.parameters = predicate.params ∧
      ∀ {D : Type} [DecidableEq D] (session : Sql.Session D) (environment : Sql.Environment D),
        ((∃ c ∈ column :: (predicate.tagColumn offered).toList, c.IsMissing environment) →
          condition.truth session environment = some true) ∧
        ((∀ c ∈ column :: (predicate.tagColumn offered).toList, ¬ c.IsMissing environment) →
          condition.truth session environment =
            predicate.operator.test session.toEngine (column.value environment)
              ((predicate.tagColumn offered).toList.map
                  (fun c => ⟨c.value environment, [c.value environment]⟩) ++
                predicate.params.map session.operand)) := by
  refine ⟨⟨fun ⟨_, h⟩ => operands_of_columnCondition h, fun ⟨hoffered, hcount⟩ => ?_⟩,
    columnCondition_of_not_offered, columnCondition_of_count_ne, fun condition hcondition => ?_⟩
  · obtain ⟨comparison, -, hcondition⟩ := exists_columnCondition column hoffered hcount
    exact ⟨_, hcondition⟩
  · obtain ⟨hoffered, hcount⟩ := operands_of_columnCondition hcondition
    obtain ⟨comparison, hcomparison, hfound⟩ := exists_columnCondition column hoffered hcount
    obtain rfl := Except.ok.inj (hfound.symm.trans hcondition)
    refine ⟨parameters_guardsOf hcomparison, fun session environment => ⟨?_, ?_⟩⟩
    · rintro ⟨c, hc, hmissing⟩
      exact truth_guardsOf_of_isMissing session hc hmissing
    · exact truth_guardsOf_of_forall hcomparison session

/-- The age of an optional young animal lies between that of its parent and a parameter. -/
def ageRange : Predicate where
  site := ⟨⟨["Animal", "out_child"]⟩, true, false, false, "Animal", some "Animal"⟩
  field := "age"
  params := ["oldest"]
  operator := .between
  tag := some ⟨⟨["Animal"]⟩, "age"⟩

theorem null_safe_condition_ageRange :
    ∃ condition,
      ageRange.columnCondition ⟨"animal_2", "age", true⟩ (some ⟨"animal_1", "age", false⟩) =
        .ok condition ∧
      condition.parameters = ["oldest"] ∧
      ∀ session : Sql.Session Nat, condition.truth session (.unbound Nat) = some true := by
  obtain ⟨hsucceeds, -, -, hmeaning⟩ := null_safe_condition ageRange ⟨"animal_2", "age", true⟩
    (some ⟨"animal_1", "age", false⟩)
  obtain ⟨condition, hcondition⟩ := hsucceeds.2 ⟨fun _ => rfl, rfl⟩
  obtain ⟨hparameters, htruth⟩ := hmeaning condition hcondition
  refine ⟨condition, hcondition, hparameters, fun session => (htruth session _).1 ?_⟩
  exact ⟨_, List.mem_cons_self, rfl, rfl⟩

end Predicate

end TraversalSql
