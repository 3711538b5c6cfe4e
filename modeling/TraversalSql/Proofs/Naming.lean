import TraversalSql.Proofs.Layout

/-!
The names of a statement.  Aliases of stored tables and names of common table expressions are all
taken from one supply, each of them once, and no two tables of a select have the same alias.
-/

namespace TraversalSql

open Outcome Sql.AliasSupply

namespace Sql

/-- The tables of a `FROM` clause, in the order in which they are joined. -/
def FromClause.tables (source : FromClause) : List TableRef :=
  source.base :: source.joins.map Join.table

def FromClause.aliases (source : FromClause) : List String :=
  source.tables.map TableRef.aliasName

def FromClause.storedAliases (source : FromClause) : List String :=
  source.tables.filterMap TableRef.storedAlias?

/-- The names that a common table expression brings along: its own, and the aliases of the stored
tables that its selects read. -/
def Cte.names (cte : Cte) : List String :=
  cte.name :: cte.selects.flatMap fun select => select.source.storedAliases

theorem Cte.names_ofSelect (name : String) (query : Select) :
    (Cte.ofSelect name query).names = name :: query.source.storedAliases := by
  simp [Cte.names, Cte.ofSelect, Cte.selects]

end Sql

theorem Sql.StoredAs.cons_reference {tables : List TableRef} {aliases : List String}
    (h : StoredAs tables aliases) (table : Table) (aliasName : String) :
    StoredAs (table.reference aliasName :: tables) (aliasName :: aliases) :=
  congrArg (some aliasName :: ·) h

theorem map_sublist_flatMap {α β : Type} {l : List α} {f : α → β} {g : α → List β}
    (h : ∀ a ∈ l, f a ∈ g a) : (l.map f).Sublist (l.flatMap g) := by
  induction l with
  | nil => exact .slnil
  | cons a l ih =>
      obtain ⟨ha, hl⟩ := List.forall_mem_cons.1 h
      rw [List.map_cons, List.flatMap_cons, ← List.singleton_append]
      exact (List.singleton_sublist.2 ha).append (ih hl)

namespace Steps

variable {α β : Type} {made : α → β → Sql.AliasSupply → Sql.AliasSupply → Prop} {as : List α}
  {bs : List β} {supply later : Sql.AliasSupply}

theorem forall₂ (h : Steps made as bs supply later) :
    List.Forall₂ (fun a b => ∃ supply later, made a b supply later) as bs := by
  induction h with
  | nil => exact .nil
  | cons hfirst _ ih => exact .cons ⟨_, _, hfirst⟩ ih

/-- What is made in steps is made from one of the sources. -/
theorem exists_of_mem (h : Steps made as bs supply later) {b : β} (hb : b ∈ bs) :
    ∃ a ∈ as, ∃ supply later, made a b supply later :=
  exists_left_of_forall₂ h.forall₂ hb

/-- What is made in steps is made after the start. -/
theorem forall₂_after (h : Steps made as bs supply later)
    (hbefore : ∀ a b supply later, made a b supply later → supply.Before later) :
    supply.Before later ∧
      List.Forall₂ (fun a b => ∃ start last, supply.Before start ∧ made a b start last) as bs := by
  induction h with
  | nil => exact ⟨.refl _, .nil⟩
  | cons hfirst _ ih =>
      have hnext := hbefore _ _ _ _ hfirst
      refine ⟨hnext.trans ih.1, .cons ⟨_, _, .refl _, hfirst⟩ (ih.2.imp ?_)⟩
      rintro a b ⟨start, last, hstart, hmade⟩
      exact ⟨start, last, hnext.trans hstart, hmade⟩

/-- What is made one after the other takes its names one after the other. -/
theorem takes (h : Steps made as bs supply later) (names : β → List String)
    (hmade : ∀ a b supply later, made a b supply later → supply.Takes (names b) later) :
    supply.Takes (bs.flatMap names) later := by
  induction h with
  | nil => exact .of_before (.refl _)
  | cons hfirst _ ih => exact (hmade _ _ _ _ hfirst).append ih

theorem draws (h : Steps made as bs supply later) (names : β → List String)
    (hmade : ∀ a b supply later, made a b supply later → supply.Draws (names b) later) :
    supply.Draws (bs.flatMap names) later := by
  induction h with
  | nil => exact .nil _
  | cons hfirst _ ih => exact (hmade _ _ _ _ hfirst).append ih

end Steps

/-- The top vertex of a group and what is bound below it take their aliases one after the other. -/
theorem Members.MadeBy.takes {members : Members} {target : Target} {scopeRoot : Node}
    {tops : List Member} {bindings : List Binding} {supply later : Sql.AliasSupply}
    (h : members.MadeBy target scopeRoot tops bindings supply later) :
    Sql.StoredAs (members.joins.map Sql.Join.table) (bindings.flatMap Binding.aliases) ∧
      supply.Draws (bindings.flatMap Binding.aliases) later := by
  rw [h.joins]
  exact ⟨h.made.storedAs_joins scopeRoot, h.made.takes⟩

theorem tables_fold (first : JoinHop) (rest : List JoinHop) (joins : List Sql.Join) :
    (Sql.FromClause.mk first.table (rest.map (JoinHop.join · .inner) ++ joins)).tables =
      (first :: rest).map JoinHop.table ++ joins.map Sql.Join.table := by
  simp [Sql.FromClause.tables, JoinHop.join, Function.comp_def]

/-- The select of a fold reads stored tables only, under aliases that differ. -/
theorem FoldMade.takes {target : Target} {owner : Member} {fold : Group} {query : FoldQuery}
    {supply later : Sql.AliasSupply} (h : FoldMade target owner fold query supply later) :
    supply.Draws query.cte.names later ∧
      ∀ select ∈ query.cte.selects, select.source.aliases = select.source.storedAliases := by
  obtain ⟨traversal, table, first, rest, members, filters, outputs, joined, bound, -, -, hpath,
    hmembers, -, -, rfl, rfl⟩ := h
  obtain ⟨bindings, hbindings, -⟩ := exists_bindings_of_bindGroup _ hmembers
  obtain ⟨passed, haliases, hpassed⟩ := hpath.takes
  obtain ⟨hjoins, hbound⟩ := hbindings.takes
  have hstored := hpath.storedAs.append hjoins
  rw [haliases, ← tables_fold] at hstored
  have hordered := hpassed.append (hbound.append (.nextCte bound .fold))
  have htaken := ((Draws.nextAlias supply table.name).append hordered).of_taken_eq
    (before_nextFoldLink _) fun _ => rfl
  refine ⟨htaken.perm ?_, ?_⟩
  · rw [foldQuery, Sql.Cte.names_ofSelect, Sql.FromClause.storedAliases,
      hstored.filterMap_storedAlias?, ← List.singleton_append]
    refine List.perm_append_comm.trans ?_
    rw [List.append_assoc, List.append_assoc, ← List.append_assoc passed]
    exact List.perm_append_comm.append_right _
  · intro select hselect
    obtain rfl := List.mem_singleton.1 hselect
    rw [Sql.FromClause.aliases, Sql.FromClause.storedAliases, hstored.map_aliasName,
      hstored.filterMap_storedAlias?]

theorem FoldMade.join_table {target : Target} {owner : Member} {fold : Group} {query : FoldQuery}
    {supply later : Sql.AliasSupply} (h : FoldMade target owner fold query supply later) :
    query.join.table = .cte query.cte.name none := by
  obtain ⟨traversal, table, first, rest, members, filters, outputs, joined, bound, -, -, -, -, -, -,
    rfl, -⟩ := h
  rfl

theorem tables_of_scopeSource {entry : Option RecursionEntry} {table : Table} {aliasName : String}
    {start : Sql.FromClause} (h : scopeSource entry table aliasName = .ok start) :
    start.tables = entry.toList.map (fun entry => Sql.TableRef.cte entry.table none) ++
      [table.reference aliasName] := by
  cases entry with
  | none =>
      obtain rfl := Except.ok.inj h
      rfl
  | some entry =>
      obtain ⟨key, -, h⟩ := bind_eq_ok_iff.1 h
      obtain rfl := pure_eq_ok_iff.1 h
      rfl

theorem tables_baseEmission (entry : Option RecursionEntry) (start : Sql.FromClause)
    (members : Members) (outputs : List (NodeOutput × Sql.Expr)) (folded : List FoldQuery)
    (filters : List Sql.Expr) :
    (baseEmission entry start members outputs folded filters).query.source.tables =
      start.tables ++ members.joins.map Sql.Join.table ++
        folded.map fun query => query.join.table := by
  simp [Sql.FromClause.tables, baseEmission, Function.comp_def]

/-- What is known of the names of an emission. -/
structure ScopeEmission.Named (emission : ScopeEmission) (supply later : Sql.AliasSupply) :
    Prop where
  /-- Each name is taken once. -/
  takes : supply.Draws
    (emission.ctes.flatMap Sql.Cte.names ++ emission.query.source.storedAliases) later
  /-- The tables of each select have aliases that differ. -/
  sources : ∀ cte ∈ emission.ctes, ∀ select ∈ cte.selects, select.source.aliases.Nodup
  source : emission.query.source.aliases.Nodup

/-- The tables of a scope without its recursions. -/
theorem BaseMade.tables {target : Target} {entry : Option RecursionEntry} {group : Group}
    {folds : List Group} {members : Members} {emission : ScopeEmission}
    {supply later : Sql.AliasSupply}
    (h : BaseMade target entry group folds members emission supply later) :
    ∃ (stored : List Sql.TableRef) (aliases : List String) (folded : List FoldQuery),
      emission.query.source.tables =
        entry.toList.map (fun entry => Sql.TableRef.cte entry.table none) ++ stored ++
          folded.map (fun query => Sql.TableRef.cte query.cte.name none) ∧
      emission.ctes = folded.map FoldQuery.cte ∧ Sql.StoredAs stored aliases ∧
      supply.Draws (aliases ++ folded.flatMap fun query => query.cte.names) later ∧
      ∀ query ∈ folded, ∀ select ∈ query.cte.selects,
        select.source.aliases = select.source.storedAliases := by
  obtain ⟨table, start, outputs, folded, filters, bound, -, hstart, hmembers, -, hfolded, -, rfl⟩ :=
    h
  obtain ⟨bindings, hbindings, -⟩ := exists_bindings_of_bindGroup _ hmembers
  obtain ⟨hjoins, hbound⟩ := hbindings.takes
  have htables := tables_of_scopeSource hstart
  have hfolds : folded.map (fun query => query.join.table) =
      folded.map fun query => Sql.TableRef.cte query.cte.name none := by
    apply List.map_congr_left
    intro query hquery
    obtain ⟨fold, -, _, _, owner, -, hmade⟩ := hfolded.exists_of_mem hquery
    exact hmade.join_table
  refine ⟨_, (supply.nextAlias table.name).1 :: bindings.flatMap Binding.aliases, folded, ?_, rfl,
    hjoins.cons_reference table _, ?_, ?_⟩
  · rw [List.append_cons, ← htables, ← hfolds]
    exact tables_baseEmission _ _ _ _ _ _
  · have hnames := hfolded.draws (fun query => query.cte.names)
      (fun _ _ _ _ ⟨_, _, hmade⟩ => hmade.takes.1)
    exact ((Draws.nextAlias _ _).append hbound).append hnames
  · intro query hquery
    obtain ⟨fold, -, _, _, owner, -, hmade⟩ := hfolded.exists_of_mem hquery
    exact hmade.takes.2

/-- The names of a scope without its recursions.  The table that feeds it was named before. -/
theorem BaseMade.named {target : Target} {entry : Option RecursionEntry} {group : Group}
    {folds : List Group} {members : Members} {emission : ScopeEmission}
    {supply later : Sql.AliasSupply}
    (h : BaseMade target entry group folds members emission supply later)
    (hentry : ∀ e ∈ entry, ∃ earlier, Issued earlier supply e.table) :
    emission.Named supply later := by
  obtain ⟨stored, aliases, folded, htables, hctes, hstored, htakes, hfolds⟩ := h.tables
  have hnames : emission.ctes.flatMap Sql.Cte.names =
      folded.flatMap fun query => query.cte.names := by
    rw [hctes, List.flatMap_map]
  have hfeeds : (entry.toList.map fun entry => Sql.TableRef.cte entry.table none).filterMap
      Sql.TableRef.storedAlias? = [] := by
    cases entry <;> rfl
  have hnone : (folded.map fun query => Sql.TableRef.cte query.cte.name none).filterMap
      Sql.TableRef.storedAlias? = [] := by
    rw [List.filterMap_map]
    exact List.filterMap_eq_nil_iff.2 fun _ _ => rfl
  have hstoredAliases : emission.query.source.storedAliases = aliases := by
    rw [Sql.FromClause.storedAliases, htables, List.filterMap_append, List.filterMap_append, hfeeds,
      hnone, hstored.filterMap_storedAlias?, List.nil_append, List.append_nil]
  refine ⟨?_, ?_, ?_⟩
  · rw [hnames, hstoredAliases]
    exact htakes.perm List.perm_append_comm
  · intro cte hcte select hselect
    rw [hctes] at hcte
    obtain ⟨query, hquery, rfl⟩ := List.mem_map.1 hcte
    rw [hfolds query hquery select hselect]
    have hnodup := (List.nodup_flatMap.1 (List.nodup_append'.1 htakes.nodup).2.1).1 query hquery
    rw [Sql.Cte.names, List.nodup_cons] at hnodup
    exact (List.nodup_flatMap.1 hnodup.2).1 select hselect
  · have hown : supply.Takes (aliases ++ folded.map fun query => query.cte.name) later := by
      apply htakes.subperm
      apply List.Sublist.subperm
      exact (List.Sublist.refl _).append (map_sublist_flatMap fun _ _ => List.mem_cons_self)
    rw [Sql.FromClause.aliases, htables, List.map_append, List.map_append, hstored.map_aliasName,
      List.append_assoc, List.map_map, List.map_map]
    cases entry with
    | none => exact hown.nodup
    | some e =>
        obtain ⟨earlier, hissued⟩ := hentry e rfl
        exact hown.nodup_cons hissued

/-- A step takes new aliases for the tables that it joins with the table it belongs to. -/
theorem Recursion.StepMade.takes {recursion : Recursion} {target : Target} {select : Sql.Select}
    {supply later : Sql.AliasSupply} (h : recursion.StepMade target select supply later) :
    select.source.aliases = recursion.name :: select.source.storedAliases ∧
      supply.Draws select.source.storedAliases later := by
  cases h with
  | @fromKey table key joined _ _ htable hkey hpath =>
      obtain ⟨passed, haliases, hpassed⟩ := hpath.takes
      have hstored := hpath.storedAs
      rw [haliases] at hstored
      have htables : (joinsFromKey (recursion.column Sql.reachedColumn) joined).map Sql.Join.table =
          joined.map JoinHop.table := by
        cases joined <;> simp [joinsFromKey, JoinHop.join, Function.comp_def]
      simp only [Sql.FromClause.aliases, Sql.FromClause.storedAliases, Sql.FromClause.tables,
        stepSelect, htables, List.map_cons, hstored.map_aliasName, List.filterMap_cons,
        Sql.TableRef.storedAlias?, hstored.filterMap_storedAlias?]
      exact ⟨rfl, ((Draws.nextAlias _ _).append hpassed).perm List.perm_append_comm⟩
  | @fromRow table key joined _ started _ current htable hkey hcurrent hpath =>
      obtain ⟨passed, haliases, hpassed⟩ := hpath.takes
      have hstored := hpath.storedAs.cons_reference table current
      rw [haliases] at hstored
      have hfirst : supply.Draws [current] started := by
        have := Draws.nextAlias supply table.name
        rwa [hcurrent] at this
      simp only [Sql.FromClause.aliases, Sql.FromClause.storedAliases, Sql.FromClause.tables,
        stepSelect, List.map_cons, List.map_map, JoinHop.join, Function.comp_def,
        hstored.map_aliasName, List.filterMap_cons, Sql.TableRef.storedAlias?,
        hstored.filterMap_storedAlias?]
      have hlast := ((Draws.nextAlias _ _).append hpassed).perm List.perm_append_comm
      exact ⟨rfl, hfirst.append hlast⟩

/-- The link columns of recursions are numbered one after the other. -/
theorem linkNames_of_linksMade {target : Target} {members : Members} {recursions : List Scope}
    {links : List ScopeColumn} {supply later : Sql.AliasSupply}
    (h : Steps (LinkMade target members) recursions links supply later) :
    supply.Before later ∧ later.links = supply.links + links.length ∧
      links.map ScopeColumn.aliasName =
        (List.range' (supply.links + 1) links.length).map (Sql.numbered "__link") := by
  induction h with
  | nil => exact ⟨.refl _, rfl, rfl⟩
  | @cons recursion column _ rest supply later last hfirst hrest ih =>
      obtain ⟨owner, table, key, -, -, -, -, rfl, rfl⟩ := hfirst
      obtain ⟨hbefore, hlinks, hnames⟩ := ih
      have hnext : supply.nextLink.2.links = supply.links + 1 := rfl
      rw [hnext] at hlinks hnames
      refine ⟨(before_nextLink _).trans hbefore, ?_, ?_⟩
      · rw [hlinks, List.length_cons]
        omega
      · rw [List.map_cons, List.length_cons, List.range'_succ, List.map_cons, hnames]
        rfl

/-- Link columns take no name that a table could have. -/
theorem taken_of_linksMade {target : Target} {members : Members} {recursions : List Scope}
    {links : List ScopeColumn} {supply later : Sql.AliasSupply}
    (h : Steps (LinkMade target members) recursions links supply later) (base : String) :
    later.taken base = supply.taken base := by
  induction h with
  | nil => rfl
  | cons hfirst _ ih =>
      obtain ⟨owner, table, key, -, -, -, -, -, rfl⟩ := hfirst
      exact ih

/-- The names of a recursive table. -/
theorem TableMade.takes {target : Target} {scopeCte link : String} {recursion : Node}
    {table : Sql.Cte} {entry : RecursionEntry} {supply later : Sql.AliasSupply}
    (h : TableMade target scopeCte link recursion table entry supply later) :
    supply.Draws table.names later ∧ entry.table = table.name ∧
      ∀ select ∈ table.selects, select.source.aliases.Nodup := by
  obtain ⟨walk, step, combinator, hwalk, hstep, -, rfl, rfl⟩ := h
  obtain ⟨hname, -, -⟩ := Recursion.name_of_ofRelation hwalk
  obtain ⟨haliases, htakes⟩ := hstep.takes
  have hnames : (Sql.Cte.mk walk.name (.recursive walk.anchor step combinator) true).names =
      [(supply.nextCte .recursion).1] ++ step.source.storedAliases := by
    simp [Sql.Cte.names, Sql.Cte.selects, Recursion.anchor, Sql.FromClause.storedAliases,
      Sql.FromClause.tables, Sql.TableRef.storedAlias?, hname]
  refine ⟨?_, hname.symm, ?_⟩
  · rw [hnames]
    exact (Draws.nextCte _ _).append htakes
  · simp only [Sql.Cte.selects, List.forall_mem_cons, List.not_mem_nil, false_implies, implies_true,
      and_true]
    refine ⟨List.nodup_singleton _, ?_⟩
    rw [haliases, hname]
    exact htakes.nodup_cons (issued_next _ _)

/-- The names of the scope of a recursion are in order if the table that feeds it was named
before. -/
def NamedAfter (_ : Scope) (entry : Option RecursionEntry) (emission : ScopeEmission)
    (supply later : Sql.AliasSupply) : Prop :=
  (∀ e ∈ entry, ∃ earlier, Issued earlier supply e.table) → emission.Named supply later

/-- The names of a recursion that is attached to a scope. -/
theorem AttachedMade.takes {target : Target} {scopeRoot : Node} {scopeCte : String}
    {source : Scope × String} {attached : AttachedRecursion} {supply later : Sql.AliasSupply}
    (h : AttachedMade target NamedAfter scopeRoot scopeCte source attached supply later) :
    supply.Draws (attached.ctes.flatMap Sql.Cte.names) later ∧
      (∀ cte ∈ attached.ctes, ∀ select ∈ cte.selects, select.source.aliases.Nodup) ∧
      ∃ cte ∈ attached.ctes, attached.join.table = .cte cte.name none := by
  obtain ⟨table, entry, emission, walked, bound, htable, hscope, rfl, rfl⟩ := h
  obtain ⟨htakes, hname, hselects⟩ := htable.takes
  have hissued := htakes.issued table.name List.mem_cons_self
  have hnamed : emission.Named walked bound := by
    apply hscope
    intro e he
    obtain rfl := Option.some.inj he
    exact ⟨supply, hname ▸ hissued⟩
  refine ⟨?_, ?_, ⟨_, mem_ctes_attach_iff.2 (.inr (.inr rfl)), rfl⟩⟩
  · have hall := (htakes.append hnamed.takes).append (.nextCte bound .scope)
    refine hall.perm ?_
    simp only [attach, List.cons_append, List.flatMap_cons, List.flatMap_append, List.flatMap_nil,
      Sql.Cte.names_ofSelect, List.append_nil, ScopeQuery.select, List.append_assoc]
    refine (List.Perm.refl _).append ((List.Perm.refl _).append ?_)
    exact (List.perm_append_singleton _ _).symm
  · intro cte hcte
    rcases mem_ctes_attach_iff.1 hcte with rfl | hcte | rfl
    · exact hselects
    · exact hnamed.sources cte hcte
    · exact List.forall_mem_singleton.2 hnamed.source

/-- The names of a scope with its recursions. -/
theorem BaseMade.named_wrapped {target : Target} {entry : Option RecursionEntry} {group : Group}
    {folds : List Group} {recursions : List Scope} {members : Members} {base : ScopeEmission}
    {links : List ScopeColumn} {attached : List AttachedRecursion}
    {supply based linked later : Sql.AliasSupply}
    (hbase : BaseMade target entry group folds members base supply based)
    (hlinks : Steps (LinkMade target members) recursions links based linked)
    (hattached : Steps (AttachedMade target NamedAfter group.node (linked.nextCte .scope).1)
      (recursions.zip (links.map ScopeColumn.aliasName)) attached (linked.nextCte .scope).2 later)
    (hentry : ∀ e ∈ entry, ∃ earlier, Issued earlier supply e.table) :
    (wrappedEmission entry base links (linked.nextCte .scope).1 attached).Named supply later := by
  have hnamed := hbase.named hentry
  obtain ⟨hbefore, -, -⟩ := linkNames_of_linksMade hlinks
  have hrest := (Draws.nextCte linked .scope).append
    (hattached.draws _ fun _ _ _ _ hmade => hmade.takes.1)
  have hmade : ∀ recursion ∈ attached,
      (∀ cte ∈ recursion.ctes, ∀ select ∈ cte.selects, select.source.aliases.Nodup) ∧
        ∃ cte ∈ recursion.ctes, recursion.join.table = .cte cte.name none := by
    intro recursion hrecursion
    obtain ⟨source, -, _, _, hmade⟩ := hattached.exists_of_mem hrecursion
    exact hmade.takes.2
  -- The select that joins the recursions reads no stored table, and so takes no name itself.
  have hjoined : (attached.map fun recursion => recursion.join.table).filterMap
      Sql.TableRef.storedAlias? = [] := by
    rw [List.filterMap_map, List.filterMap_eq_nil_iff]
    intro recursion hrecursion
    obtain ⟨-, cte, -, htable⟩ := hmade recursion hrecursion
    rw [Function.comp_apply, htable]
    rfl
  refine ⟨?_, ?_, ?_⟩
  · refine ((hnamed.takes.of_taken_eq hbefore (taken_of_linksMade hlinks)).append hrest).perm ?_
    have hnone : (wrappedEmission entry base links (linked.nextCte .scope).1
        attached).query.source.storedAliases = [] := by
      simpa [wrappedEmission, Sql.FromClause.storedAliases, Sql.FromClause.tables,
        Sql.TableRef.storedAlias?, Function.comp_def] using hjoined
    rw [hnone]
    simp only [wrappedEmission, List.flatMap_append, List.flatMap_cons, List.flatMap_nil,
      Sql.Cte.names_ofSelect, ScopeQuery.select, List.append_nil, List.append_assoc,
      List.flatMap_assoc]
    refine (List.Perm.refl _).append ?_
    exact List.perm_middle.symm
  · intro cte hcte
    rcases mem_ctes_wrappedEmission_iff.1 hcte with hcte | rfl | ⟨recursion, hrecursion, hcte⟩
    · exact hnamed.sources cte hcte
    · exact List.forall_mem_singleton.2 hnamed.source
    · exact (hmade recursion hrecursion).1 cte hcte
  · have hown : linked.Takes ((linked.nextCte .scope).1 ::
        attached.map fun recursion => recursion.join.table.aliasName) later := by
      apply hrest.subperm
      apply List.Sublist.subperm
      apply List.Sublist.cons_cons
      apply map_sublist_flatMap
      intro recursion hrecursion
      obtain ⟨-, cte, hcte, htable⟩ := hmade recursion hrecursion
      rw [htable]
      exact List.mem_flatMap.2 ⟨cte, hcte, List.mem_cons_self⟩
    simpa [wrappedEmission, Sql.FromClause.aliases, Sql.FromClause.tables, Function.comp_def,
      Sql.TableRef.aliasName] using hown.nodup

/-- Every emitted scope takes each of its names once, and the tables of each select have aliases
that differ. -/
theorem named_of_emitScope {target : Target} {scope : Scope} {entry : Option RecursionEntry}
    {emission : ScopeEmission} {supply later : Sql.AliasSupply}
    (h : emitScope target scope entry supply = .ok (emission, later))
    (hentry : ∀ e ∈ entry, ∃ earlier, Issued earlier supply e.table) :
    emission.Named supply later :=
  emitScope_induction (motive := NamedAfter) (fun hbase => hbase.named)
    (fun _ hbase hlinks hattached => hbase.named_wrapped hlinks hattached) scope h hentry

end TraversalSql
