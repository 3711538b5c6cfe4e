import Mathlib
import TraversalSql.Proofs.ConditionReading

/-!
Printed conditions keep their structure.  Conditions are merged before they are printed, and an
operand is put into parentheses by a rule that looks at the operand and the operator above it.  What
is printed is nevertheless read as something that is as true as the conditions together.
-/

namespace TraversalSql.Sql

/-- Truths are the same if each of the two that are known has the same place in both. -/
theorem Truth.eq_of_iff {left right : Truth} (known : Bool)
    (hknown : left = some known ↔ right = some known)
    (hopposite : left = some (!known) ↔ right = some (!known)) : left = right := by
  rcases left with _ | left <;> rcases right with _ | right
  · rfl
  · cases known <;> cases right <;> simp at hknown hopposite
  · cases known <;> cases left <;> simp at hknown hopposite
  · cases known <;> cases left <;> cases right <;> simp at hknown hopposite ⊢

namespace Connective

theorem ofOperator?_operator (c : Connective) : ofOperator? c.operator = some c := by
  cases c <;> rfl

theorem eq_operator_of_ofOperator? {op : Operator} {c : Connective}
    (h : ofOperator? op = some c) : op = c.operator := by
  cases op <;> simp [ofOperator?] at h <;> subst h <;> rfl

/-- What a connective makes of truths. -/
def combine : Connective → List Truth → Truth
  | .and => Truth.all
  | .or => Truth.any

/-- The truth that decides a combination alone. -/
def decisive : Connective → Bool
  | .and => false
  | .or => true

theorem combine_eq (c : Connective) (truths : List Truth) :
    c.combine truths =
      if some c.decisive ∈ truths then some c.decisive
      else if none ∈ truths then none else some (!c.decisive) := by
  cases c <;> rfl

theorem combine_eq_decisive_iff (c : Connective) {truths : List Truth} :
    c.combine truths = some c.decisive ↔ some c.decisive ∈ truths := by
  rw [combine_eq]
  split
  · next h => simp [h]
  · next h => split <;> simp [h]

theorem combine_eq_not_decisive_iff (c : Connective) {truths : List Truth} :
    c.combine truths = some (!c.decisive) ↔ ∀ truth ∈ truths, truth = some (!c.decisive) := by
  rw [combine_eq]
  constructor
  · intro h truth htruth
    split at h
    · exact absurd h (by simp)
    · next hdecisive =>
      split at h
      · exact absurd h (by simp)
      · next hunknown =>
        rcases truth with _ | known
        · exact absurd htruth hunknown
        · have hne : known ≠ c.decisive := fun hsame => hdecisive (hsame ▸ htruth)
          rw [Bool.eq_not_of_ne hne]
  · intro h
    rw [if_neg fun hmem => by simpa using h _ hmem, if_neg fun hmem => by simpa using h _ hmem]

theorem combine_singleton (c : Connective) (truth : Truth) : c.combine [truth] = truth := by
  cases c <;> rcases truth with _ | _ | _ <;> rfl

/-- Truths may be combined piece by piece. -/
theorem combine_flatMap {α : Type} (c : Connective) (as : List α) (f : α → List Truth) :
    c.combine (as.flatMap f) = c.combine (as.map fun a => c.combine (f a)) := by
  apply Truth.eq_of_iff c.decisive
  · simp only [combine_eq_decisive_iff, List.mem_flatMap, List.mem_map]
  · simp only [combine_eq_not_decisive_iff, List.forall_mem_map, List.forall_mem_flatMap]

theorem combine_cons (c : Connective) (truth : Truth) (truths : List Truth) :
    c.combine (truth :: truths) = c.combine [truth, c.combine truths] := by
  have hpieces := c.combine_flatMap [[truth], truths] id
  simpa [combine_singleton] using hpieces

end Connective

namespace Expr

/-- An expression that is no conjunction or disjunction itself.  Whatever it contains is part of its
text. -/
def IsAtom (e : Expr) : Prop := ∀ (c : Connective) operands, e ≠ .apply c.operator operands

/-- A tree of conjunctions and disjunctions over atoms, each of them with one operand at least. -/
inductive IsCondition : Expr → Prop
  | atom {e : Expr} (h : e.IsAtom) : IsCondition e
  | connective (c : Connective) {operands : List Expr} (hne : operands ≠ [])
      (h : ∀ e ∈ operands, IsCondition e) : IsCondition (.apply c.operator operands)

section

variable (assign : Expr → Truth)

mutual

/-- The truth of a condition when the truths of its atoms are given. -/
def truthUnder : Expr → Truth
  | .apply op operands =>
      match Connective.ofOperator? op with
      | some c => c.combine (truthsUnder operands)
      | none => assign (.apply op operands)
  | e => assign e

def truthsUnder : List Expr → List Truth
  | [] => []
  | e :: rest => e.truthUnder :: truthsUnder rest

end

end

mutual

def atoms : Expr → List Expr
  | .apply op operands =>
      match Connective.ofOperator? op with
      | some _ => atomsOfAll operands
      | none => [.apply op operands]
  | e => [e]

def atomsOfAll : List Expr → List Expr
  | [] => []
  | e :: rest => e.atoms ++ atomsOfAll rest

end

/-- What is no conjunction or disjunction is applied with another operator, if any. -/
theorem IsAtom.ofOperator?_eq_none {op : Operator} {operands : List Expr}
    (h : (Expr.apply op operands).IsAtom) : Connective.ofOperator? op = none := by
  rw [Option.eq_none_iff_forall_ne_some]
  intro c hc
  exact h c operands (by rw [Connective.eq_operator_of_ofOperator? hc])

theorem atoms_of_isAtom {e : Expr} (h : e.IsAtom) : e.atoms = [e] := by
  cases e with
  | apply op operands => rw [atoms, h.ofOperator?_eq_none]
  | _ => rw [atoms]; simp

theorem truthUnder_connective (c : Connective) (operands : List Expr) (assign : Expr → Truth) :
    (Expr.apply c.operator operands).truthUnder assign =
      c.combine (operands.map (truthUnder assign)) := by
  have hall : ∀ es, truthsUnder assign es = es.map (truthUnder assign) := by
    intro es
    induction es with
    | nil => rw [truthsUnder, List.map_nil]
    | cons e es ih => rw [truthsUnder, ih, List.map_cons]
  rw [truthUnder, Connective.ofOperator?_operator, hall]

theorem atoms_connective (c : Connective) (operands : List Expr) :
    (Expr.apply c.operator operands).atoms = operands.flatMap atoms := by
  have hall : ∀ es, atomsOfAll es = es.flatMap atoms := by
    intro es
    induction es with
    | nil => rw [atomsOfAll, List.flatMap_nil]
    | cons e es ih => rw [atomsOfAll, ih, List.flatMap_cons]
  rw [atoms, Connective.ofOperator?_operator, hall]

theorem print_connective (traits : Traits) (c : Connective) (operands : List Expr) :
    (Expr.apply c.operator operands).print traits =
      c.text.intercalate (operands.map fun e => enclosed c.operator e (e.print traits)) := by
  have hzip : List.zipWith (enclosed c.operator) operands (operands.map (print traits)) =
      operands.map fun e => enclosed c.operator e (e.print traits) := by
    rw [List.zipWith_map_right, List.zipWith_self]
  rw [print, printAll_eq_map, ← hzip]
  cases c <;> rfl

/-- Any operand that is no atom is put into parentheses. -/
theorem isAtom_of_not_needsParentheses {e : Expr} (c : Connective)
    (h : e.needsParentheses c.operator = false) : e.IsAtom := by
  rintro d operands rfl
  cases c <;> cases d <;> exact absurd h Bool.true_eq_false.mp

end Expr

open ConditionToken in
/-- A text can be read, at a level, as something with the atoms and the truth of an expression. -/
def RendersAt (traits : Traits) (level : ReadingLevel) (e : Expr) (text : String) : Prop :=
  ∃ tokens read, written traits tokens = text ∧ atoms tokens = e.atoms ∧
    Reads level tokens read ∧ ∀ assign, read.truthUnder assign = e.truthUnder assign

namespace RendersAt

variable {traits : Traits} {e : Expr} {text : String}

theorem of_isAtom (h : e.IsAtom) : RendersAt traits .operand e (e.print traits) :=
  ⟨[.atom e], e, by simp [ConditionToken.written, ConditionToken.print],
    (Expr.atoms_of_isAtom h).symm, .atom e, fun _ => rfl⟩

theorem enclose (h : RendersAt traits (.chain .or) e text) :
    RendersAt traits .operand e ("(" ++ text ++ ")") := by
  obtain ⟨tokens, read, rfl, hatoms, hreads, htruth⟩ := h
  refine ⟨_, read, ?_, ?_, .enclosed hreads, htruth⟩
  · simp [ConditionToken.written, ConditionToken.written_append, ConditionToken.print,
      String.append_assoc]
  · rw [← hatoms]
    simp [ConditionToken.atoms]

/-- What is read at a level is read at the levels above it. -/
theorem single (c : Connective) (h : RendersAt traits c.tighter e text) :
    RendersAt traits (.chain c) e text := by
  obtain ⟨tokens, read, htext, hatoms, hreads, htruth⟩ := h
  exact ⟨tokens, read, htext, hatoms, .single c hreads, htruth⟩

theorem tighter (c : Connective) (h : RendersAt traits .operand e text) :
    RendersAt traits c.tighter e text := by
  cases c with
  | and => exact h
  | or => exact single .and h

theorem disjunction (c : Connective) (h : RendersAt traits (.chain c) e text) :
    RendersAt traits (.chain .or) e text := by
  cases c with
  | and => exact single .or h
  | or => exact h

/-- Operands that can be read, with a connective between any two of them, can be read as what the
connective makes of them. -/
theorem chain (c : Connective) {operands : List Expr} {texts : List String}
    (h : List.Forall₂ (RendersAt traits c.tighter) operands texts) (hne : operands ≠ []) :
    RendersAt traits (.chain c) (.apply c.operator operands) (c.text.intercalate texts) := by
  induction h with
  | nil => exact absurd rfl hne
  | @cons e text operands texts hfirst hrest ih =>
      obtain ⟨tokens, read, rfl, hatoms, hreads, htruth⟩ := hfirst
      cases hrest with
      | nil =>
          refine ⟨tokens, read, by simp, ?_, .single c hreads, fun assign => ?_⟩
          · rw [hatoms, Expr.atoms_connective, List.flatMap_singleton]
          · rw [htruth, Expr.truthUnder_connective, List.map_singleton, c.combine_singleton]
      | @cons next _ later =>
          obtain ⟨others, readOthers, htext, hotherAtoms, hotherReads, hotherTruth⟩ := ih (by simp)
          refine ⟨_, _, ?_, ?_, .chain c hreads hotherReads, fun assign => ?_⟩
          · rw [ConditionToken.written_append, ConditionToken.written, htext]
            simp [ConditionToken.print, String.append_assoc]
          · rw [ConditionToken.atoms_append, hatoms, Expr.atoms_connective, List.flatMap_cons,
              ← Expr.atoms_connective c, ← hotherAtoms]
            rfl
          · calc (Expr.apply c.operator [read, readOthers]).truthUnder assign
                = c.combine [read.truthUnder assign, readOthers.truthUnder assign] :=
                  Expr.truthUnder_connective c _ assign
              _ = c.combine [e.truthUnder assign,
                    c.combine ((next :: later).map (Expr.truthUnder assign))] := by
                  rw [htruth, hotherTruth, Expr.truthUnder_connective]
              _ = (Expr.apply c.operator (e :: next :: later)).truthUnder assign := by
                  rw [← c.combine_cons, Expr.truthUnder_connective]
                  rfl

/-- The text of a condition can be read. -/
theorem of_isCondition (h : e.IsCondition) : RendersAt traits (.chain .or) e (e.print traits) := by
  induction h with
  | atom h => exact single .or (tighter .or (of_isAtom h))
  | @connective c operands hne h ih =>
      rw [Expr.print_connective]
      refine disjunction c (chain c (List.forall₂_map_right_iff.2 (List.forall₂_same.2 ?_)) hne)
      intro e he
      apply tighter
      unfold Expr.enclosed
      split
      · exact enclose (ih e he)
      · next hbare =>
        exact of_isAtom (Expr.isAtom_of_not_needsParentheses c (by simpa using hbare))

end RendersAt

namespace Expr

/-- The operands under `AND` of a condition. -/
theorem operandsUnder_and_cases (e : Expr) :
    (∃ operands, e = .apply .and operands ∧ operandsUnder .and e = operands) ∨
      operandsUnder .and e = [e] := by
  cases e with
  | apply op operands =>
      by_cases hop : op = .and
      · subst hop
        exact .inl ⟨operands, rfl, rfl⟩
      · exact .inr (if_neg hop)
  | _ => exact .inr rfl

/-- Merging keeps the atoms of a condition and its truth. -/
theorem flatMap_atoms_operandsUnder (e : Expr) :
    (operandsUnder .and e).flatMap atoms = e.atoms := by
  rcases e.operandsUnder_and_cases with ⟨operands, rfl, hunder⟩ | hunder
  · rw [hunder]
    exact (atoms_connective .and operands).symm
  · rw [hunder, List.flatMap_singleton]

theorem combine_truthUnder_operandsUnder (e : Expr) (assign : Expr → Truth) :
    Connective.and.combine ((operandsUnder .and e).map (truthUnder assign)) =
      e.truthUnder assign := by
  rcases e.operandsUnder_and_cases with ⟨operands, rfl, hunder⟩ | hunder
  · rw [hunder]
    exact (truthUnder_connective .and operands assign).symm
  · rw [hunder, List.map_singleton, Connective.combine_singleton]

theorem IsCondition.operandsUnder {e : Expr} (h : e.IsCondition) :
    operandsUnder .and e ≠ [] ∧ ∀ operand ∈ operandsUnder .and e, operand.IsCondition := by
  rcases e.operandsUnder_and_cases with ⟨operands, rfl, hunder⟩ | hunder
  · rw [hunder]
    generalize hand : Expr.apply .and operands = e at h
    cases h with
    | atom hatom => exact absurd hand.symm (hatom .and operands)
    | connective c hne hoperands =>
        obtain ⟨-, rfl⟩ := Expr.apply.inj hand
        exact ⟨hne, hoperands⟩
  · rw [hunder]
    exact ⟨by simp, List.forall_mem_singleton.2 h⟩

/-- Conditions that are joined are one condition, with their atoms and as true as all of them. -/
theorem exists_conjunction {conditions : List Expr} (h : ∀ c ∈ conditions, c.IsCondition)
    (hne : conditions ≠ []) :
    ∃ joint, conjunction conditions = some joint ∧ joint.IsCondition ∧
      joint.atoms = conditions.flatMap atoms ∧
      ∀ assign, joint.truthUnder assign = Truth.all (conditions.map (truthUnder assign)) := by
  have hatoms : (conditions.flatMap (operandsUnder .and)).flatMap atoms =
      conditions.flatMap atoms := by
    rw [List.flatMap_assoc]
    exact List.flatMap_congr fun e _ => flatMap_atoms_operandsUnder e
  have htruth : ∀ assign, Connective.and.combine
      ((conditions.flatMap (operandsUnder .and)).map (truthUnder assign)) =
        Truth.all (conditions.map (truthUnder assign)) := by
    intro assign
    rw [List.map_flatMap, Connective.combine_flatMap]
    simp only [combine_truthUnder_operandsUnder]
    rfl
  have hoperands : ∀ e ∈ conditions.flatMap (operandsUnder .and), e.IsCondition := by
    intro e he
    obtain ⟨c, hc, he⟩ := List.mem_flatMap.1 he
    exact (h c hc).operandsUnder.2 e he
  rw [← hatoms]
  simp only [← htruth]
  unfold conjunction joined
  match hjoined : conditions.flatMap (operandsUnder .and) with
  | [] =>
      obtain ⟨first, rest, rfl⟩ := List.exists_cons_of_ne_nil hne
      rw [List.flatMap_eq_nil_iff] at hjoined
      exact absurd (hjoined first List.mem_cons_self) (h first List.mem_cons_self).operandsUnder.1
  | [e] =>
      rw [hjoined] at hoperands
      exact ⟨e, rfl, hoperands e (List.mem_singleton.2 rfl), by simp,
        fun assign => (Connective.combine_singleton .and _).symm⟩
  | first :: second :: rest =>
      rw [hjoined] at hoperands
      exact ⟨_, rfl, .connective .and (by simp) hoperands, atoms_connective .and _,
        truthUnder_connective .and _⟩

theorem conjunction_eq_none_iff {conditions : List Expr} (h : ∀ c ∈ conditions, c.IsCondition) :
    conjunction conditions = none ↔ conditions = [] := by
  constructor
  · intro hnone
    by_contra hne
    obtain ⟨joint, hjoint, -⟩ := exists_conjunction h hne
    exact absurd (hnone.symm.trans hjoint) (by simp)
  · rintro rfl
    rfl

end Expr

/-- A text has one reading with the atoms of conditions, and that is as true as all of them. -/
def ReadsBack (traits : Traits) (conditions : List Expr) (text : String) : Prop :=
  ∃ read, ReadsAs traits (conditions.flatMap Expr.atoms) text read ∧
    (∀ other, ReadsAs traits (conditions.flatMap Expr.atoms) text other → other = read) ∧
    ∀ assign, read.truthUnder assign = Truth.all (conditions.map (Expr.truthUnder assign))

/-- The text of conditions that are joined is read back. -/
theorem exists_readsBack (traits : Traits) {conditions : List Expr}
    (h : ∀ c ∈ conditions, c.IsCondition) (hne : conditions ≠ []) :
    ∃ joint, Expr.conjunction conditions = some joint ∧
      ReadsBack traits conditions (joint.print traits) := by
  obtain ⟨joint, hjoint, hcondition, hatoms, htruth⟩ := Expr.exists_conjunction h hne
  obtain ⟨tokens, read, htext, hknown, hreads, hread⟩ := RendersAt.of_isCondition hcondition
  have hreadsAs : ReadsAs traits (conditions.flatMap Expr.atoms) (joint.print traits) read :=
    ⟨tokens, htext, hknown.trans hatoms, hreads⟩
  exact ⟨joint, hjoint, read, hreadsAs, fun other hother => hother.unique hreadsAs,
    fun assign => (hread assign).trans (htruth assign)⟩

/-- A clause that says which rows are kept. -/
def IsFilterClause (clause : String) : Prop := "WHERE".toList <+: clause.toList

theorem not_isFilterClause_of_head? {clause : String} (first : Char)
    (h : clause.toList.head? = some first) (hne : first ≠ 'W') : ¬ IsFilterClause clause := by
  rintro ⟨rest, hclause⟩
  rw [← hclause] at h
  exact hne (Option.some.inj h).symm

theorem Join.not_isFilterClause (traits : Traits) (join : Join) :
    ¬ IsFilterClause (join.print traits) := by
  unfold Join.print
  split
  · cases join.kind with
    | inner => exact not_isFilterClause_of_head? 'I' (by simp [JoinKind.keywords]) (by decide)
    | left => exact not_isFilterClause_of_head? 'L' (by simp [JoinKind.keywords]) (by decide)
  · exact not_isFilterClause_of_head? 'C' (by simp) (by decide)

namespace Select

/-- The clauses of a select before its filters. -/
def clausesBefore (traits : Traits) (query : Select) : List String :=
  let keyword := if query.distinct then "SELECT DISTINCT" else "SELECT"
  (keyword ++ " " ++ ", ".intercalate (query.items.map (SelectItem.print traits))) ::
    ("FROM " ++ query.source.base.print traits) :: query.source.joins.map (Join.print traits)

/-- The clauses of a select after its filters. -/
def clausesAfter (traits : Traits) (query : Select) : List String :=
  if query.groupBy.isEmpty then []
  else ["GROUP BY " ++ ", ".intercalate (query.groupBy.map (Expr.print traits))]

theorem clauses_eq (traits : Traits) (query : Select) :
    query.clauses traits =
      query.clausesBefore traits ++
        ((Expr.conjunction query.filters).map fun joint => "WHERE " ++ joint.print traits).toList ++
          query.clausesAfter traits := by
  unfold clauses
  cases Expr.conjunction query.filters <;> rfl

/-- No other clause says which rows are kept. -/
theorem not_isFilterClause {traits : Traits} {query : Select} {clause : String}
    (h : clause ∈ query.clausesBefore traits ++ query.clausesAfter traits) :
    ¬ IsFilterClause clause := by
  rcases List.mem_append.1 h with hbefore | hafter
  · rcases List.mem_cons.1 hbefore with rfl | hbefore
    · refine not_isFilterClause_of_head? 'S' ?_ (by decide)
      cases query.distinct <;> simp
    · rcases List.mem_cons.1 hbefore with rfl | hjoin
      · exact not_isFilterClause_of_head? 'F' (by simp) (by decide)
      · obtain ⟨join, -, rfl⟩ := List.mem_map.1 hjoin
        exact join.not_isFilterClause traits
  · unfold clausesAfter at hafter
    split at hafter
    · exact absurd hafter List.not_mem_nil
    · rw [List.mem_singleton.1 hafter]
      exact not_isFilterClause_of_head? 'G' (by simp) (by decide)

theorem conjunction_eq_none_iff {traits : Traits} {query : Select} :
    Expr.conjunction query.filters = none ↔
      ∀ clause ∈ query.clauses traits, ¬ IsFilterClause clause := by
  rw [clauses_eq]
  constructor
  · intro hnone clause hclause
    rw [hnone, Option.map_none, Option.toList_none, List.append_nil] at hclause
    exact not_isFilterClause hclause
  · intro h
    cases hjoint : Expr.conjunction query.filters with
    | none => rfl
    | some joint =>
        refine absurd ?_ (h ("WHERE " ++ joint.print traits) (by simp [hjoint]))
        exact ⟨' ' :: (joint.print traits).toList, by simp⟩

end Select

/-- Printed conditions keep their logical structure.  Where conditions are the filters of a select,
its text has a clause for them exactly if there are any, and where they are the conditions of a join,
its text has them after `ON`.  What is written there has one reading in which each of their atoms is
a token, `AND` binds tighter than `OR` and parentheses group; and under every assignment of truths to
the atoms this reading is as true as all conditions together. -/
theorem conditions_read_back (dialect : Dialect) {conditions : List Expr}
    (h : ∀ condition ∈ conditions, condition.IsCondition) :
    (∀ query : Select, query.filters = conditions →
      (conditions = [] ↔ ∀ clause ∈ query.clauses dialect.traits, ¬ IsFilterClause clause) ∧
      (conditions = [] → query.print dialect.traits =
        "\n".intercalate (query.clausesBefore dialect.traits ++
          query.clausesAfter dialect.traits)) ∧
      (conditions ≠ [] → ∃ text, ReadsBack dialect.traits conditions text ∧
        query.print dialect.traits =
          "\n".intercalate (query.clausesBefore dialect.traits ++
            ("WHERE " ++ text) :: query.clausesAfter dialect.traits))) ∧
    ∀ join : Join, join.conditions = conditions →
      (conditions = [] →
        join.print dialect.traits = "CROSS JOIN " ++ join.table.print dialect.traits) ∧
      (conditions ≠ [] → ∃ text, ReadsBack dialect.traits conditions text ∧
        join.print dialect.traits = join.kind.keywords ++ " " ++
          join.table.print dialect.traits ++ " ON " ++ text) := by
  constructor
  · rintro query rfl
    refine ⟨?_, fun hnil => ?_, fun hne => ?_⟩
    · rw [← Select.conjunction_eq_none_iff, Expr.conjunction_eq_none_iff h]
    · rw [Select.print, Select.clauses_eq, (Expr.conjunction_eq_none_iff h).2 hnil,
        Option.map_none, Option.toList_none, List.append_nil]
    · obtain ⟨joint, hjoint, hreads⟩ := exists_readsBack dialect.traits h hne
      refine ⟨_, hreads, ?_⟩
      rw [Select.print, Select.clauses_eq, hjoint]
      simp
  · rintro join rfl
    refine ⟨fun hnil => ?_, fun hne => ?_⟩
    · rw [Join.print, hnil]
      rfl
    · obtain ⟨joint, hjoint, hreads⟩ := exists_readsBack dialect.traits h hne
      refine ⟨_, hreads, ?_⟩
      rw [Join.print, hjoint]

/-- A select with a disjunction under a conjunction under a disjunction, over atoms whose texts have
connectives and parentheses of their own. -/
def Select.nested : Select where
  distinct := false
  items := [⟨.column "animal_1" "name", none⟩]
  source := ⟨.table none "animal" "animal_1", []⟩
  filters := [.apply .or [.apply .and [.apply .or [.raw "(x OR y)", .raw "z"],
    .apply .between [.column "animal_1" "age", .parameter "low", .parameter "high"]], .raw "(("],
    .apply .and [.raw "w"]]
  groupBy := []

theorem conditions_read_back_nested :
    (∀ condition ∈ Select.nested.filters, condition.IsCondition) ∧
    Select.nested.print Dialect.sqlite.traits =
      "SELECT animal_1.name\nFROM animal AS animal_1\nWHERE ((((x OR y) OR z) AND " ++
        "animal_1.age BETWEEN :low AND :high) OR (() AND w" ∧
    ∃ text, ReadsBack Dialect.sqlite.traits Select.nested.filters text ∧
      Select.nested.print Dialect.sqlite.traits =
        "\n".intercalate ["SELECT animal_1.name", "FROM animal AS animal_1", "WHERE " ++ text] := by
  have h : ∀ condition ∈ Select.nested.filters, condition.IsCondition := by
    have hraw : ∀ text, (Expr.raw text).IsCondition := fun text => .atom nofun
    have hbetween : ∀ operands, (Expr.apply .between operands).IsCondition := by
      refine fun operands => .atom fun c others hsame => ?_
      cases c <;> exact absurd (Expr.apply.inj hsame).1 (by decide)
    have hpair : ∀ {left right : Expr}, left.IsCondition → right.IsCondition →
        ∀ e ∈ [left, right], e.IsCondition :=
      fun hleft hright => List.forall_mem_cons.2 ⟨hleft, List.forall_mem_singleton.2 hright⟩
    have hinner := Expr.IsCondition.connective .or (List.cons_ne_nil _ _)
      (hpair (hraw "(x OR y)") (hraw "z"))
    have hmiddle := fun operands => Expr.IsCondition.connective .and (List.cons_ne_nil _ _)
      (hpair hinner (hbetween operands))
    exact hpair (.connective .or (List.cons_ne_nil _ _) (hpair (hmiddle _) (hraw "((")))
      (.connective .and (List.cons_ne_nil _ _) (List.forall_mem_singleton.2 (hraw "w")))
  obtain ⟨-, -, hwritten⟩ := (conditions_read_back .sqlite h).1 Select.nested rfl
  obtain ⟨text, hreads, hprint⟩ := hwritten (by simp [Select.nested])
  have hbefore : Select.nested.clausesBefore Dialect.sqlite.traits =
      ["SELECT animal_1.name", "FROM animal AS animal_1"] := by cbv
  rw [hbefore] at hprint
  exact ⟨h, by cbv, text, hreads, hprint⟩

end TraversalSql.Sql
