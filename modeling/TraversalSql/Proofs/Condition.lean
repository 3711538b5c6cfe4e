import TraversalSql.Emission.Members
import TraversalSql.Proofs.Supply

/-!
The conditions of filters.  A filter has a condition exactly if it has the operands that its
operator takes, and then the condition is one comparison, behind the tests for what may be missing.
-/

namespace TraversalSql

open Outcome

/-- A comparison behind tests, of which each lets a row pass. -/
def guarded (guards : List Sql.Expr) (comparison : Sql.Expr) : Sql.Expr :=
  if guards.isEmpty then comparison else .apply .or (guards ++ [comparison])

/-- The tests of a filter on a column and the column of its tag. -/
def Operand.guardsOf (column : Operand) (tag : Option Operand) : List Sql.Expr :=
  column.guards ++ (tag.map Operand.guards).getD []

/-- A test asks whether the column of the filter or of its tag is missing. -/
theorem Operand.exists_of_mem_guardsOf {column : Operand} {tag : Option Operand}
    {guard : Sql.Expr} (h : guard ∈ column.guardsOf tag) :
    ∃ operand : Operand, (operand = column ∨ operand ∈ tag) ∧ guard = operand.column.isNull := by
  have hguards : ∀ {operand : Operand}, guard ∈ operand.guards → guard = operand.column.isNull := by
    intro operand hguard
    unfold Operand.guards at hguard
    split at hguard
    · exact List.mem_singleton.1 hguard
    · exact absurd hguard List.not_mem_nil
  rcases List.mem_append.1 h with hguard | hguard
  · exact ⟨column, .inl rfl, hguards hguard⟩
  · cases tag with
    | none => exact absurd hguard List.not_mem_nil
    | some operand => exact ⟨operand, .inr rfl, hguards hguard⟩

namespace FilterOperator

/-- A comparison applies an operator that is no connective to the column and to operands. -/
theorem exists_apply_of_comparison? {operator : FilterOperator} {column comparison : Sql.Expr}
    {values : List Sql.Expr} (h : operator.comparison? column values = some comparison) :
    ∃ op operands, comparison = .apply op (column :: operands) ∧ op ≠ .or ∧ op ≠ .and := by
  match values with
  | [] => cases operator <;> simp [comparison?, shape] at h
  | [value] =>
      cases operator <;> simp only [comparison?, shape, Option.some.injEq, reduceCtorEq] at h <;>
        exact ⟨_, _, h.symm, by decide, by decide⟩
  | [lower, upper] =>
      cases operator <;> simp only [comparison?, shape, Option.some.injEq, reduceCtorEq] at h
      exact ⟨_, _, h.symm, by decide, by decide⟩
  | _ :: _ :: _ :: _ => cases operator <;> simp [comparison?, shape] at h

/-- There is a comparison exactly if there are as many values as the operator takes. -/
theorem comparison?_isSome_iff {operator : FilterOperator} {column : Sql.Expr}
    {values : List Sql.Expr} :
    (operator.comparison? column values).isSome ↔
      values.length = operator.cardinality.operands := by
  match values with
  | [] => cases operator <;> simp [comparison?, shape, cardinality, Cardinality.operands]
  | [value] => cases operator <;> simp [comparison?, shape, cardinality, Cardinality.operands]
  | [lower, upper] =>
      cases operator <;> simp [comparison?, shape, cardinality, Cardinality.operands]
  | _ :: _ :: _ :: _ =>
      cases operator <;> simp [comparison?, shape, cardinality, Cardinality.operands]

end FilterOperator

theorem flatMap_operandsUnder_or {conditions : List Sql.Expr}
    (h : ∀ condition ∈ conditions, ∃ op operands,
      condition = Sql.Expr.apply op operands ∧ op ≠ .or) :
    conditions.flatMap (Sql.Expr.operandsUnder .or) = conditions := by
  induction conditions with
  | nil => rfl
  | cons condition conditions ih =>
      obtain ⟨op, operands, rfl, hop⟩ := h condition List.mem_cons_self
      rw [List.flatMap_cons, ih fun c hc => h c (List.mem_cons_of_mem _ hc), Sql.Expr.operandsUnder,
        if_neg hop]
      rfl

/-- Tests and a comparison are alternatives of one disjunction. -/
theorem disjunction_guards {column : Operand} {tag : Option Operand}
    (hguards : column.guardsOf tag ≠ []) {comparison : Sql.Expr} {op : Sql.Operator}
    {operands : List Sql.Expr} (hcomparison : comparison = .apply op operands) (hop : op ≠ .or) :
    Sql.Expr.disjunction (column.guardsOf tag ++ [comparison]) =
      some (.apply .or (column.guardsOf tag ++ [comparison])) := by
  have hflat : (column.guardsOf tag ++ [comparison]).flatMap (Sql.Expr.operandsUnder .or) =
      column.guardsOf tag ++ [comparison] := by
    apply flatMap_operandsUnder_or
    intro condition hcondition
    rcases List.mem_append.1 hcondition with hguard | hlast
    · obtain ⟨operand, -, rfl⟩ := Operand.exists_of_mem_guardsOf hguard
      exact ⟨_, _, rfl, by decide⟩
    · exact ⟨op, operands, (List.mem_singleton.1 hlast).trans hcomparison, hop⟩
  rw [Sql.Expr.disjunction, Sql.Expr.joined, hflat]
  cases hcases : column.guardsOf tag with
  | nil => exact absurd hcases hguards
  | cons guard guards => cases guards <;> rfl

/-- What the condition of a filter is. -/
theorem condition_eq_ok_iff {predicate : Predicate} {column : Operand} {tag : Option Operand}
    {condition : Sql.Expr} :
    predicate.condition column tag = .ok condition ↔
      ∃ tagged comparison, predicate.tagOperand tag = .ok tagged ∧
        predicate.operator.comparison? column.column (predicate.values tagged) =
          some comparison ∧
        condition = guarded (column.guardsOf tagged) comparison := by
  unfold Predicate.condition
  simp only [throw_bind, bind_eq_ok_iff]
  refine exists_congr fun tagged => ?_
  cases hcomparison : predicate.operator.comparison? column.column (predicate.values tagged) with
  | none => split <;> simp [throw_eq_ok_iff]
  | some comparison =>
      have hlength := FilterOperator.comparison?_isSome_iff.1
        (Option.isSome_iff_exists.2 ⟨_, hcomparison⟩)
      obtain ⟨op, operands, happly, hop, -⟩ :=
        FilterOperator.exists_apply_of_comparison? hcomparison
      have hguards : column.guards ++ (tagged.map Operand.guards).getD [] =
        column.guardsOf tagged := rfl
      rw [if_neg (by simpa using hlength), hguards]
      by_cases hempty : column.guardsOf tagged = []
      · simp [hempty, guarded, pure_eq_ok_iff, @eq_comm _ condition]
      · have hnonempty : (column.guardsOf tagged).isEmpty = false := by simpa using hempty
        simp [disjunction_guards hempty happly hop, hnonempty, guarded, pure_eq_ok_iff,
          @eq_comm _ condition]

theorem tagOperand_eq_ok {predicate : Predicate} {offered tag : Option Operand}
    (h : predicate.tagOperand offered = .ok tag) :
    predicate.tag = none ∧ tag = none ∨
      predicate.tag.isSome ∧ tag.isSome ∧ tag = offered := by
  cases hpredicate : predicate.tag with
  | none =>
      simp only [Predicate.tagOperand, hpredicate, Except.ok.injEq] at h
      exact .inl ⟨rfl, h.symm⟩
  | some ref =>
      cases offered with
      | none => simp [Predicate.tagOperand, hpredicate] at h
      | some operand =>
          simp only [Predicate.tagOperand, hpredicate, Except.ok.injEq] at h
          exact .inr ⟨rfl, by rw [← h]; rfl, h.symm⟩

theorem Member.column_eq_ok_iff {member : Member} {schema : Schema} {field : String}
    {expression : Sql.Expr} :
    member.column schema field = .ok expression ↔
      ∃ column, schema.columnOf member.node.typeName field = .ok column ∧
        expression = .column member.aliasName column := by
  unfold Member.column
  simp only [bind_eq_ok_iff, Emit.ofSchema_eq_ok_iff, pure_eq_ok_iff, @eq_comm _ expression]

/-- What the members give out: a field of one of them. -/
theorem Members.exists_of_mem_outputs {members : Members} {schema : Schema}
    {outputs : List (NodeOutput × Sql.Expr)} (h : members.outputs schema = .ok outputs)
    {output : NodeOutput} {expression : Sql.Expr} (hmem : (output, expression) ∈ outputs) :
    ∃ m ∈ members.bound, output ∈ m.node.outputs ∧
      ∃ column, schema.columnOf m.node.typeName output.field = .ok column ∧
        expression = .column m.aliasName column := by
  obtain ⟨⟨m, given⟩, hgiven, hemitted⟩ := exists_source h hmem
  obtain ⟨found, hfound, hpure⟩ := bind_eq_ok_iff.1 hemitted
  obtain ⟨rfl, rfl⟩ := Prod.mk.inj (pure_eq_ok_iff.1 hpure)
  obtain ⟨other, hm, hgiven⟩ := List.mem_flatMap.1 hgiven
  obtain ⟨_, houtput, hsame⟩ := List.mem_map.1 hgiven
  obtain ⟨rfl, rfl⟩ := Prod.mk.inj hsame
  exact ⟨_, hm, houtput, Member.column_eq_ok_iff.1 hfound⟩

/-- The operand of a tag is a column of the member of its node; without a tag there is none. -/
def Members.Tagged (members : Members) (schema : Schema) (scopeRoot : Node) (p : NodePredicate)
    (operand : Option Operand) : Prop :=
  (∃ tag id tagged column, p.predicate.tag = some tag ∧ p.tagNode = some id ∧
      members.find? id = some tagged ∧
      schema.columnOf tagged.node.typeName tag.field = .ok column ∧
      operand = some ⟨.column tagged.aliasName column, tagged.node.optionalWithin scopeRoot⟩) ∨
    (p.predicate.tag = none ∨ p.tagNode = none) ∧ operand = none

theorem Members.tagged_of_tagOperand {members : Members} {schema : Schema} {scopeRoot node : Node}
    {p : NodePredicate} {operand : Option Operand}
    (h : members.tagOperand schema scopeRoot node p = .ok operand) :
    members.Tagged schema scopeRoot p operand := by
  unfold Members.tagOperand at h
  split at h
  · next tag id htag hid =>
    split at h
    · exact absurd h (by simp)
    · next tagged htagged =>
      obtain ⟨expression, hexpression, h⟩ := bind_eq_ok_iff.1 h
      obtain ⟨column, hcolumn, rfl⟩ := Member.column_eq_ok_iff.1 hexpression
      obtain rfl := pure_eq_ok_iff.1 h
      exact .inl ⟨tag, id, tagged, column, htag, hid, htagged, hcolumn, rfl⟩
  · next hnone =>
    refine .inr ⟨?_, (Except.ok.inj h).symm⟩
    cases htag : p.predicate.tag with
    | none => exact .inl rfl
    | some tag =>
        cases hid : p.tagNode with
        | none => exact .inr rfl
        | some id => exact absurd hid (hnone tag id htag)

/-- What the condition of a filter of a member is. -/
theorem Members.exists_of_filter_eq_ok {members : Members} {schema : Schema} {scopeRoot : Node}
    {member : Member} {p : NodePredicate} {condition : Sql.Expr}
    (h : members.filter schema scopeRoot member p = .ok condition) :
    ∃ column tag comparison, schema.columnOf member.node.typeName p.predicate.field = .ok column ∧
      members.Tagged schema scopeRoot p tag ∧ (tag.isSome ↔ p.predicate.tag.isSome) ∧
      p.predicate.operator.comparison? (.column member.aliasName column)
        (p.predicate.values tag) = some comparison ∧
      condition = guarded (Operand.guardsOf
        ⟨.column member.aliasName column, member.node.optionalWithin scopeRoot⟩ tag)
          comparison := by
  unfold Members.filter at h
  obtain ⟨expression, hexpression, h⟩ := bind_eq_ok_iff.1 h
  obtain ⟨column, hcolumn, rfl⟩ := Member.column_eq_ok_iff.1 hexpression
  obtain ⟨offered, hoffered, h⟩ := bind_eq_ok_iff.1 h
  obtain ⟨tag, comparison, htag, hcomparison, rfl⟩ := condition_eq_ok_iff.1 h
  have hoffered := tagged_of_tagOperand hoffered
  rcases tagOperand_eq_ok htag with ⟨hnone, rfl⟩ | ⟨hsome, hgiven, rfl⟩
  · refine ⟨column, none, comparison, hcolumn, .inr ⟨.inl hnone, rfl⟩, ?_, hcomparison, rfl⟩
    simp [hnone]
  · exact ⟨column, tag, comparison, hcolumn, hoffered, by simp [hsome, hgiven], hcomparison, rfl⟩

end TraversalSql
