import TraversalSql.Compile
import TraversalSql.Proofs.Outcome

/-!
The plan of a query does not depend on the dialect.  Two compilations of a query that differ only in
the dialect run in lockstep: they take the same names from the supply and fail at the same place.
The statements they give differ only in how a fold is collected and in the combinator of recursive
tables, and in the latter only where no combinator is asked for by name.
-/

namespace TraversalSql

namespace Outcome

variable {ε α β γ δ : Type}

/-- Two outcomes that are the same up to a relation between results: both fail with one error, or
both give results that are related. -/
inductive Agree (R : α → β → Prop) : Except ε α → Except ε β → Prop
  | error (e : ε) : Agree R (.error e) (.error e)
  | ok {a : α} {b : β} (h : R a b) : Agree R (.ok a) (.ok b)

namespace Agree

variable {R : α → β → Prop} {x : Except ε α} {y : Except ε β}

theorem refl {R : α → α → Prop} (hrefl : ∀ a, R a a) (x : Except ε α) : Agree R x x := by
  cases x with
  | error e => exact .error e
  | ok a => exact .ok (hrefl a)

theorem bind {S : γ → δ → Prop} {f : α → Except ε γ} {g : β → Except ε δ} (h : Agree R x y)
    (hnext : ∀ a b, R a b → Agree S (f a) (g b)) : Agree S (x >>= f) (y >>= g) := by
  cases h with
  | error e => exact .error e
  | ok hrelated => exact hnext _ _ hrelated

theorem mapError {ε' : Type} (f : ε → ε') (h : Agree R x y) :
    Agree R (x.mapError f) (y.mapError f) := by
  cases h with
  | error e => exact .error (f e)
  | ok hrelated => exact .ok hrelated

end Agree

section

variable {R : α → α → Prop} {as bs : List α}

/-- Entries that correspond and give the same parts, one after the other. -/
theorem flatMap_eq_of_forall₂ {f : α → List β}
    (h : List.Forall₂ R as bs) (hparts : ∀ a b, R a b → f a = f b) :
    as.flatMap f = bs.flatMap f := by
  induction h with
  | nil => rfl
  | cons hfirst _ ih => rw [List.flatMap_cons, List.flatMap_cons, hparts _ _ hfirst, ih]

theorem map_eq_of_forall₂ {f : α → β} (h : List.Forall₂ R as bs)
    (hparts : ∀ a b, R a b → f a = f b) : as.map f = bs.map f := by
  induction h with
  | nil => rfl
  | cons hfirst _ ih => rw [List.map_cons, List.map_cons, hparts _ _ hfirst, ih]

end

end Outcome

open Outcome

namespace Emit

variable {α β γ δ : Type}

/-- Two computations that, from the same supply, leave the same supply and give related results, or
fail with the same error. -/
def Lockstep (R : α → β → Prop) (x : Emit α) (y : Emit β) : Prop :=
  ∀ supply, Agree (fun a b => R a.1 b.1 ∧ a.2 = b.2) (x supply) (y supply)

namespace Lockstep

theorem refl (x : Emit α) : Lockstep Eq x x := fun supply => .refl (fun _ => ⟨rfl, rfl⟩) (x supply)

theorem pure {R : α → β → Prop} {a : α} {b : β} (h : R a b) :
    Lockstep R (Pure.pure a) (Pure.pure b) := fun _ => .ok ⟨h, rfl⟩

theorem throw {R : α → β → Prop} (e : EmitError) :
    Lockstep R (MonadExcept.throw e) (MonadExcept.throw e) := fun _ => .error e

theorem lift {R : α → β → Prop} {x : Except EmitError α} {y : Except EmitError β}
    (h : Agree R x y) : Lockstep R (liftM x : Emit α) (liftM y : Emit β) := by
  intro supply
  cases h with
  | error e => exact .error e
  | ok hrelated => exact .ok ⟨hrelated, rfl⟩

theorem bind {R : α → β → Prop} {S : γ → δ → Prop} {x : Emit α} {y : Emit β} {f : α → Emit γ}
    {g : β → Emit δ} (h : Lockstep R x y) (hnext : ∀ a b, R a b → Lockstep S (f a) (g b)) :
    Lockstep S (x >>= f) (y >>= g) := by
  intro supply
  refine (h supply).bind ?_
  rintro ⟨a, later⟩ ⟨b, _⟩ ⟨hrelated, rfl⟩
  exact hnext a b hrelated later

/-- A step that both computations share. -/
theorem step {S : γ → δ → Prop} (x : Emit α) {f : α → Emit γ} {g : α → Emit δ}
    (hnext : ∀ a, Lockstep S (f a) (g a)) : Lockstep S (x >>= f) (x >>= g) := by
  refine (refl x).bind ?_
  rintro a _ rfl
  exact hnext a

end Lockstep

end Emit

namespace Sql

/-- Two expressions are the same, or they collect the same column, each in its own dialect. -/
inductive Expr.Alike (first second : Dialect) : Expr → Expr → Prop
  | same (e : Expr) : Alike first second e e
  | collected (column : Expr) : Alike first second
      (.aggregate first.traits.foldFunction (column :: first.traits.foldArguments.map .raw))
      (.aggregate second.traits.foldFunction (column :: second.traits.foldArguments.map .raw))

/-- Two columns of selects have the same name and are alike. -/
structure SelectItem.Alike (first second : Dialect) (item other : SelectItem) : Prop where
  expression : item.expression.Alike first second other.expression
  aliasName : item.aliasName = other.aliasName

/-- Two selects are the same but for the columns, which are alike one by one. -/
structure Select.Alike (first second : Dialect) (query other : Select) : Prop where
  distinct : query.distinct = other.distinct
  items : List.Forall₂ (SelectItem.Alike first second) query.items other.items
  source : query.source = other.source
  filters : query.filters = other.filters
  groupBy : query.groupBy = other.groupBy

/-- Two contents are alike: the selects are, or the recursions are the same up to the combinator.
That is the combinator of the dialect, unless one is asked for by name. -/
inductive CteContent.Alike (first second : Dialect) (asked : Option String) :
    CteContent → CteContent → Prop
  | select {query other : Select} (h : query.Alike first second other) :
      Alike first second asked (.select query) (.select other)
  | recursive (anchor step : Select) (h : asked = none) :
      Alike first second asked (.recursive anchor step first.traits.combinator)
        (.recursive anchor step second.traits.combinator)
  | asked (anchor step : Select) {combinator : Combinator}
      (h : asked.bind Combinator.ofName? = some combinator) :
      Alike first second asked (.recursive anchor step combinator)
        (.recursive anchor step combinator)

/-- Two common table expressions have the same name, and their contents are alike. -/
structure Cte.Alike (first second : Dialect) (asked : Option String) (cte other : Cte) : Prop where
  name : cte.name = other.name
  content : cte.content.Alike first second asked other.content
  isRecursive : cte.isRecursive = other.isRecursive

/-- Two statements are the same but for their dialects and for their common table expressions,
which are alike one by one. -/
structure Statement.Alike (first second : Dialect) (asked : Option String)
    (statement other : Statement) : Prop where
  dialect : statement.dialect = first ∧ other.dialect = second
  ctes : List.Forall₂ (Cte.Alike first second asked) statement.ctes other.ctes
  body : statement.body = other.body
  parameters : statement.parameters = other.parameters

variable {first second : Dialect} {asked : Option String}

theorem Expr.Alike.parameters_eq {e other : Expr} (h : e.Alike first second other) :
    e.parameters = other.parameters := by
  cases h with
  | same => rfl
  | collected column =>
      rw [Expr.parameters, Expr.parameters, Expr.parametersOfAll, Expr.parametersOfAll,
        Expr.parametersOfAll_raw, Expr.parametersOfAll_raw]

theorem Select.Alike.refl (query : Select) : query.Alike first second query :=
  ⟨rfl, List.forall₂_same.2 fun item _ => ⟨.same item.expression, rfl⟩, rfl, rfl, rfl⟩

theorem Cte.Alike.ofSelect_refl (name : String) (query : Select) :
    (Cte.ofSelect name query).Alike first second asked (Cte.ofSelect name query) :=
  ⟨rfl, .select (.refl query), rfl⟩

theorem Select.Alike.parameters_eq {query other : Select} (h : query.Alike first second other) :
    query.expressions.flatMap Expr.parameters = other.expressions.flatMap Expr.parameters := by
  have hitems : (query.items.map SelectItem.expression).flatMap Expr.parameters =
      (other.items.map SelectItem.expression).flatMap Expr.parameters := by
    rw [List.flatMap_map, List.flatMap_map]
    exact flatMap_eq_of_forall₂ h.items fun _ _ halike => halike.expression.parameters_eq
  simp only [Select.expressions, List.flatMap_append, hitems, h.source, h.filters, h.groupBy]

theorem Cte.Alike.parameters_eq {cte other : Cte} (h : cte.Alike first second asked other) :
    (cte.selects.flatMap fun query => query.expressions.flatMap Expr.parameters) =
      other.selects.flatMap fun query => query.expressions.flatMap Expr.parameters := by
  obtain ⟨name, content, isRecursive⟩ := cte
  obtain ⟨_, _, _⟩ := other
  cases h.content with
  | select hselect => simp [Cte.selects, hselect.parameters_eq]
  | recursive | asked => rfl

end Sql

/-- Statements whose common table expressions are alike have the same parameters. -/
theorem QueryTree.manifest_of_alike {first second : Sql.Dialect} {asked : Option String}
    {ctes others : List Sql.Cte} (h : List.Forall₂ (Sql.Cte.Alike first second asked) ctes others)
    (tree : QueryTree) (body : Sql.Select) :
    tree.manifest ctes body = tree.manifest others body := by
  have hctes : (ctes.flatMap Sql.Cte.selects).flatMap
        (fun query => query.expressions.flatMap Sql.Expr.parameters) =
      (others.flatMap Sql.Cte.selects).flatMap
        fun query => query.expressions.flatMap Sql.Expr.parameters := by
    rw [List.flatMap_assoc, List.flatMap_assoc]
    exact flatMap_eq_of_forall₂ h fun _ _ halike => halike.parameters_eq
  simp only [manifest, List.flatMap_append, hctes]

def Target.inDialect (target : Target) (dialect : Sql.Dialect) : Target := { target with dialect }

/-- Two emitted folds are the same but for their common table expressions, which are alike. -/
structure FoldQuery.Alike (first second : Sql.Dialect) (asked : Option String)
    (query other : FoldQuery) : Prop where
  cte : query.cte.Alike first second asked other.cte
  join : query.join = other.join
  columns : query.columns = other.columns
  bound : query.bound = other.bound

/-- Two emitted scopes are the same but for their common table expressions, which are alike. -/
structure ScopeEmission.Alike (first second : Sql.Dialect) (asked : Option String)
    (emission other : ScopeEmission) : Prop where
  ctes : List.Forall₂ (Sql.Cte.Alike first second asked) emission.ctes other.ctes
  query : emission.query = other.query
  bound : emission.bound = other.bound

/-- Two attached recursions are the same but for their common table expressions, which are alike. -/
structure AttachedRecursion.Alike (first second : Sql.Dialect) (asked : Option String)
    (recursion other : AttachedRecursion) : Prop where
  ctes : List.Forall₂ (Sql.Cte.Alike first second asked) recursion.ctes other.ctes
  join : recursion.join = other.join
  columns : recursion.columns = other.columns
  bound : recursion.bound = other.bound

section

variable (target : Target) (first second : Sql.Dialect)

theorem bindChildren_inDialect (scopeRoot : Node) (parent : Member) (children : List Group) :
    bindChildren (target.inDialect first) scopeRoot parent children =
      bindChildren (target.inDialect second) scopeRoot parent children := by
  induction children with
  | nil => rfl
  | cons child children ih =>
      rw [bindChildren, bindChildren, ih]
      rfl

mutual

theorem bindGroup_inDialect (scopeRoot : Node) (inFold : Bool) (group : Group)
    (aliasName : String) :
    bindGroup (target.inDialect first) scopeRoot inFold group aliasName =
      bindGroup (target.inDialect second) scopeRoot inFold group aliasName := by
  match group with
  | .mk node children =>
      simp only [bindGroup, bindChildren_inDialect target first second,
        bindGroups_inDialect scopeRoot inFold children]

theorem bindGroups_inDialect (scopeRoot : Node) (inFold : Bool) (groups : List Group)
    (aliases : List String) :
    bindGroups (target.inDialect first) scopeRoot inFold groups aliases =
      bindGroups (target.inDialect second) scopeRoot inFold groups aliases := by
  match groups, aliases with
  | [], _ | _ :: _, [] => simp only [bindGroups]
  | group :: groups, aliasName :: aliases =>
      rw [bindGroups, bindGroups, bindGroup_inDialect scopeRoot inFold group,
        bindGroups_inDialect scopeRoot inFold groups]

end

theorem emitLinks_inDialect (members : Members) (recursions : List Scope) :
    emitLinks (target.inDialect first) members recursions =
      emitLinks (target.inDialect second) members recursions := by
  induction recursions with
  | nil => rfl
  | cons recursion recursions ih =>
      rw [emitLinks, emitLinks, ih]
      rfl

/-- The combinators are those of the dialects, unless one is asked for by name. -/
theorem combinator_agree (anchor step : Sql.Select) :
    Agree (fun combinator other => Sql.CteContent.Alike first second target.combinator
        (.recursive anchor step combinator) (.recursive anchor step other))
      (Recursion.combinator (target.inDialect first))
      (Recursion.combinator (target.inDialect second)) := by
  cases hasked : target.combinator with
  | none =>
      simp only [Recursion.combinator, Target.recursionCombinator, Target.inDialect, hasked]
      exact .ok (.recursive anchor step rfl)
  | some name =>
      simp only [Recursion.combinator, Target.recursionCombinator, Target.inDialect, hasked]
      cases hname : Sql.Combinator.ofName? name with
      | none => exact .error _
      | some combinator => exact .ok (.asked anchor step (by rw [Option.bind_some, hname]))

end

section

variable {target : Target} {first second : Sql.Dialect}

open Emit

theorem emitFold_lockstep (owner : Member) (fold : Group) :
    Lockstep (FoldQuery.Alike first second target.combinator)
      (emitFold (target.inDialect first) owner fold)
      (emitFold (target.inDialect second) owner fold) := by
  refine Lockstep.step (foldPath (target.inDialect first) owner fold.node) ?_
  rintro ⟨aliasName, hops⟩
  cases hops with
  | nil => exact .throw _
  | cons hop rest =>
      dsimp only
      rw [bindGroup_inDialect target first second]
      refine .step _ fun members => .step _ fun filters => .step _ fun name => .step _ fun link =>
        .step _ fun outputs => .pure ⟨⟨rfl, .select ⟨rfl, ?_, rfl, rfl, rfl⟩, rfl⟩, rfl, rfl, rfl⟩
      refine .cons ⟨.same _, rfl⟩ ?_
      rw [List.forall₂_map_left_iff, List.forall₂_map_right_iff]
      exact List.forall₂_same.2 fun output _ => ⟨.collected output.2, rfl⟩

theorem emitFolds_lockstep (members : Members) (folds : List Group) :
    Lockstep (List.Forall₂ (FoldQuery.Alike first second target.combinator))
      (emitFolds (target.inDialect first) members folds)
      (emitFolds (target.inDialect second) members folds) := by
  induction folds with
  | nil => exact .pure .nil
  | cons fold folds ih =>
      exact .step _ fun owner => (emitFold_lockstep owner fold).bind fun _ _ hfirst =>
        ih.bind fun _ _ hrest => .pure (.cons hfirst hrest)

theorem emitBase_lockstep (entry : Option RecursionEntry) (group : Group) (folds : List Group) :
    Lockstep (fun made other => made.1 = other.1 ∧
        made.2.Alike first second target.combinator other.2)
      (emitBase (target.inDialect first) entry group folds)
      (emitBase (target.inDialect second) entry group folds) := by
  refine Lockstep.step (liftM (ofSchema (target.schema.tableOf group.node.typeName))) fun table =>
    .step _ fun aliasName => .step _ fun start => ?_
  rw [bindGroup_inDialect target first second]
  refine .step _ fun members => .step _ fun outputs =>
    (emitFolds_lockstep members folds).bind fun folded others hfolded => .step _ fun filters =>
      .pure ⟨rfl, ?_⟩
  have hjoins : folded.map FoldQuery.join = others.map FoldQuery.join :=
    map_eq_of_forall₂ hfolded fun _ _ halike => halike.join
  have hcolumns : folded.flatMap FoldQuery.columns = others.flatMap FoldQuery.columns :=
    flatMap_eq_of_forall₂ hfolded fun _ _ halike => halike.columns
  have hbound : folded.flatMap FoldQuery.bound = others.flatMap FoldQuery.bound :=
    flatMap_eq_of_forall₂ hfolded fun _ _ halike => halike.bound
  rw [hjoins, hcolumns, hbound]
  refine ⟨?_, rfl, rfl⟩
  rw [List.forall₂_map_left_iff, List.forall₂_map_right_iff]
  exact hfolded.imp fun _ _ halike => halike.cte

theorem emitRecursion_lockstep (scopeCte : String) (recursion : Node) (link : String) :
    Lockstep (fun made other => made.1.Alike first second target.combinator other.1 ∧
        made.2 = other.2)
      (emitRecursion (target.inDialect first) scopeCte recursion link)
      (emitRecursion (target.inDialect second) scopeCte recursion link) := by
  have htable : ∀ walk : Recursion, Lockstep (Sql.Cte.Alike first second target.combinator)
      (walk.cte (target.inDialect first)) (walk.cte (target.inDialect second)) := by
    intro walk
    refine Lockstep.step (walk.step (target.inDialect first)) fun step => ?_
    exact (Lockstep.lift (combinator_agree target first second walk.anchor step)).bind
      fun _ _ hcontent => .pure ⟨rfl, hcontent, rfl⟩
  refine .step _ fun name => ?_
  refine Lockstep.step (liftM (Recursion.ofRelation (target.inDialect first) recursion.relation name
    scopeCte link)) fun walk => ?_
  exact (htable walk).bind fun _ _ halike => .pure ⟨halike, rfl⟩

theorem attach_alike {asked : Option String} {scopeRoot recursion : Node}
    {scopeCte link name : String} {table other : Sql.Cte} {emission made : ScopeEmission}
    (htable : table.Alike first second asked other)
    (hemission : emission.Alike first second asked made) :
    (attach scopeRoot scopeCte recursion link table name emission).Alike first second asked
      (attach scopeRoot scopeCte recursion link other name made) := by
  rw [attach, attach, hemission.query, hemission.bound]
  refine ⟨.cons htable ?_, rfl, rfl, rfl⟩
  exact List.rel_append hemission.ctes (.cons (.ofSelect_refl _ _) .nil)

mutual

theorem emitScope_lockstep (scope : Scope) (entry : Option RecursionEntry) :
    Lockstep (ScopeEmission.Alike first second target.combinator)
      (emitScope (target.inDialect first) scope entry)
      (emitScope (target.inDialect second) scope entry) := by
  match scope with
  | .mk group folds recursions =>
      rw [emitScope, emitScope]
      refine (emitBase_lockstep entry group folds).bind ?_
      rintro ⟨members, base⟩ ⟨_, other⟩ ⟨rfl, hbase⟩
      dsimp only
      rw [emitLinks_inDialect target first second]
      refine .step _ fun links => ?_
      by_cases hempty : recursions.isEmpty
      · rw [if_pos hempty, if_pos hempty]
        exact .pure hbase
      · rw [if_neg hempty, if_neg hempty]
        refine .step _ fun scopeCte => (emitRecursions_lockstep recursions _).bind
          fun attached others hattached => .pure ?_
        have hjoins : attached.map AttachedRecursion.join = others.map AttachedRecursion.join :=
          map_eq_of_forall₂ hattached fun _ _ halike => halike.join
        have hcolumns : attached.flatMap AttachedRecursion.columns =
            others.flatMap AttachedRecursion.columns :=
          flatMap_eq_of_forall₂ hattached fun _ _ halike => halike.columns
        have hbound : attached.flatMap AttachedRecursion.bound =
            others.flatMap AttachedRecursion.bound :=
          flatMap_eq_of_forall₂ hattached fun _ _ halike => halike.bound
        rw [hjoins, hcolumns, hbound, hbase.query, hbase.bound]
        refine ⟨?_, rfl, rfl⟩
        refine List.rel_append (List.rel_append hbase.ctes (.cons (.ofSelect_refl _ _) .nil)) ?_
        exact List.rel_flatMap hattached fun _ _ halike => halike.ctes

theorem emitRecursions_lockstep (recursions : List Scope) {scopeRoot : Node} {scopeCte : String}
    (links : List String) :
    Lockstep (List.Forall₂ (AttachedRecursion.Alike first second target.combinator))
      (emitRecursions (target.inDialect first) scopeRoot scopeCte recursions links)
      (emitRecursions (target.inDialect second) scopeRoot scopeCte recursions links) := by
  match recursions, links with
  | [], _ | _ :: _, [] =>
      simp only [emitRecursions]
      exact .pure .nil
  | recursion :: recursions, link :: links =>
      rw [emitRecursions, emitRecursions]
      refine (emitRecursion_lockstep scopeCte recursion.node link).bind ?_
      rintro ⟨table, entry⟩ ⟨other, _⟩ ⟨htable, rfl⟩
      refine (emitScope_lockstep recursion (some entry)).bind fun emission made hemission =>
        .step _ fun name => (emitRecursions_lockstep recursions links).bind fun _ _ hrest =>
          .pure (.cons (attach_alike htable hemission) hrest)

end

end

namespace QueryTree

variable (tree : QueryTree) (target : Target) (first second : Sql.Dialect)

theorem emission_agree :
    Agree (ScopeEmission.Alike first second target.combinator)
      (tree.emission (target.inDialect first)) (tree.emission (target.inDialect second)) := by
  by_cases hempty : tree.outputAliases.isEmpty
  · simp only [emission, if_pos hempty]
    exact .error _
  cases hroot : tree.rootScope? with
  | none =>
      simp only [emission, hroot, if_neg hempty]
      exact .error _
  | some scope =>
      simp only [emission, hroot, if_neg hempty]
      refine (emitScope_lockstep scope none .fresh).bind ?_
      rintro ⟨emission, later⟩ ⟨other, _⟩ ⟨halike, rfl⟩
      dsimp only
      rw [halike.query, halike.bound]
      by_cases hcomplete : tree.isComplete (sortedOutputs other.query.columns)
      · simp only [hcomplete, Bool.not_true]
        exact .ok ⟨halike.ctes, rfl, rfl⟩
      · simp only [hcomplete, Bool.not_false]
        exact .error _

theorem statement_agree :
    Agree (Sql.Statement.Alike first second target.combinator)
      (tree.statement (target.inDialect first)) (tree.statement (target.inDialect second)) := by
  refine (emission_agree tree target first second).bind fun emission other halike => .ok ?_
  rw [halike.query]
  exact ⟨⟨rfl, rfl⟩, halike.ctes, rfl, manifest_of_alike halike.ctes tree _⟩

end QueryTree

/-- Under two dialects a query fails with the same error, or gives statements that are alike. -/
theorem Query.compile_agree (query : Query) (target : Target) (first second : Sql.Dialect) :
    Agree (Sql.Statement.Alike first second target.combinator)
      (query.compile (target.inDialect first)) (query.compile (target.inDialect second)) := by
  refine (Agree.refl (fun _ => rfl) (query.tree.mapError CompileError.query)).bind ?_
  rintro tree _ rfl
  exact (tree.statement_agree target first second).mapError CompileError.emission

end TraversalSql
