import TraversalSql.Proofs.BoundVertices

/-!
The names under which selects expose their columns.  An output has the alias that the query gives
it, and a column that links scopes has a reserved name with a number of its own.  Hence no select
exposes a name twice if the aliases of a query differ and none of them is reserved.
-/

namespace TraversalSql

open Outcome Sql.AliasSupply

namespace Sql

/-- Names that start with two underscores are reserved for what links scopes. -/
def Reserved (name : String) : Prop := "__".toList <+: name.toList

instance : DecidablePred Reserved :=
  fun name => inferInstanceAs (Decidable ("__".toList <+: name.toList))

theorem Reserved.numbered {base : String} (h : Reserved base) (number : Nat) :
    Reserved (numbered base number) := by
  unfold Reserved Sql.numbered at *
  rw [String.toList_append, String.toList_append, List.append_assoc]
  exact h.trans (List.prefix_append _ _)

/-- A name that is counted off for a column that links scopes. -/
def LinkName (name : String) : Prop :=
  ∃ number, 0 < number ∧ (name = numbered "__link" number ∨ name = numbered "__fold_link" number)

theorem LinkName.reserved {name : String} (h : LinkName name) : Reserved name := by
  obtain ⟨number, -, rfl | rfl⟩ := h
  · exact Reserved.numbered (by decide) number
  · exact Reserved.numbered (by decide) number

/-- A select exposes columns that link scopes under names that differ, and the others under some of
the given names. -/
def Select.ExposesAmong (select : Select) (names : List String) : Prop :=
  ∃ links outputs : List String,
    (select.items.map SelectItem.aliasName).Perm ((links ++ outputs).map some) ∧
      links.Nodup ∧ (∀ link ∈ links, LinkName link) ∧ outputs.Subperm names

namespace Select.ExposesAmong

variable {select : Select} {names : List String}

theorem mono (h : select.ExposesAmong names) {more : List String} (hmore : names.Subperm more) :
    select.ExposesAmong more := by
  obtain ⟨links, outputs, hitems, hnodup, hlinks, houtputs⟩ := h
  exact ⟨links, outputs, hitems, hnodup, hlinks, houtputs.trans hmore⟩

/-- The names that a select exposes differ exactly if no output has the name of a link. -/
theorem nodup_iff_disjoint {aliases : List (Option String)} {links outputs : List String}
    (hitems : aliases.Perm ((links ++ outputs).map some)) (hlinks : links.Nodup)
    (houtputs : outputs.Subperm names) (hnames : names.Nodup) :
    aliases.Nodup ↔ links.Disjoint outputs := by
  obtain ⟨kept, hperm, hsublist⟩ := houtputs
  have houtputs : outputs.Nodup := hperm.nodup_iff.1 (hsublist.nodup hnames)
  rw [hitems.nodup_iff, List.nodup_map_iff (Option.some_injective _), List.nodup_append']
  exact ⟨fun h => h.2.2, fun h => ⟨hlinks, houtputs, h⟩⟩

theorem nodup_of_not_linkName (h : select.ExposesAmong names) (hnames : names.Nodup)
    (hplain : ∀ name ∈ names, ¬ LinkName name) : (select.items.map SelectItem.aliasName).Nodup := by
  obtain ⟨links, outputs, hitems, hnodup, hlinks, houtputs⟩ := h
  rw [nodup_iff_disjoint hitems hnodup houtputs hnames]
  exact fun name hlink houtput => hplain name (houtputs.subset houtput) (hlinks name hlink)

theorem nodup (h : select.ExposesAmong names) (hnames : names.Nodup)
    (hplain : ∀ name ∈ names, ¬ Reserved name) : (select.items.map SelectItem.aliasName).Nodup :=
  h.nodup_of_not_linkName hnames fun name hname hlink => hplain name hname hlink.reserved

end Select.ExposesAmong

end Sql

def outputNames (columns : List ScopeColumn) : List String :=
  (columns.filter ScopeColumn.isOutput).map ScopeColumn.aliasName

def linkNames (columns : List ScopeColumn) : List String :=
  (columns.filter fun column => !column.isOutput).map ScopeColumn.aliasName

theorem outputNames_append (columns others : List ScopeColumn) :
    outputNames (columns ++ others) = outputNames columns ++ outputNames others := by
  rw [outputNames, List.filter_append, List.map_append]
  rfl

theorem linkNames_append (columns others : List ScopeColumn) :
    linkNames (columns ++ others) = linkNames columns ++ linkNames others := by
  rw [linkNames, List.filter_append, List.map_append]
  rfl

theorem names_of_isOutput {columns : List ScopeColumn} (h : ∀ c ∈ columns, c.isOutput) :
    outputNames columns = columns.map ScopeColumn.aliasName ∧ linkNames columns = [] := by
  refine ⟨?_, ?_⟩
  · rw [outputNames, List.filter_eq_self.2 h]
  · rw [linkNames, List.filter_eq_nil_iff.2 (by simpa using h), List.map_nil]

theorem names_of_not_isOutput {columns : List ScopeColumn} (h : ∀ c ∈ columns, ¬ c.isOutput) :
    outputNames columns = [] ∧ linkNames columns = columns.map ScopeColumn.aliasName := by
  refine ⟨?_, ?_⟩
  · rw [outputNames, List.filter_eq_nil_iff.2 h, List.map_nil]
  · rw [linkNames, List.filter_eq_self.2 (by simpa using h)]

/-- The select of a scope exposes its columns. -/
theorem ScopeQuery.exposesAmong (query : ScopeQuery) (hnodup : (linkNames query.columns).Nodup)
    (hlinks : ∀ link ∈ linkNames query.columns, Sql.LinkName link) :
    query.select.ExposesAmong (outputNames query.columns) := by
  refine ⟨_, _, ?_, hnodup, hlinks, List.Subperm.refl _⟩
  have hsplit := (List.filter_append_perm (fun column => !column.isOutput) query.columns).symm
  have hnames := hsplit.map fun column => some column.aliasName
  rw [ScopeQuery.select, List.map_map]
  refine hnames.trans ?_
  simp [linkNames, outputNames, Function.comp_def]

/-- A fold exposes its outputs and the column by which it is joined. -/
theorem FoldMade.exposes {target : Target} {owner : Member} {fold : Group} {query : FoldQuery}
    {supply later : Sql.AliasSupply} (h : FoldMade target owner fold query supply later) :
    (∀ c ∈ query.columns, c.isOutput) ∧
      ∃ select, query.cte.plain? = some select ∧
        select.ExposesAmong (outputNames query.columns) := by
  obtain ⟨traversal, table, first, rest, members, filters, outputs, joined, bound, -, -, -, -, -, -,
    rfl, -⟩ := h
  have houtputs : ∀ c ∈ (foldQuery target (bound.nextCte .fold).1
      (bound.nextCte .fold).2.nextFoldLink.1 first rest members filters outputs).columns,
        c.isOutput := by
    intro c hc
    obtain ⟨output, -, rfl⟩ := List.mem_map.1 hc
    rfl
  refine ⟨houtputs, _, rfl, [(bound.nextCte .fold).2.nextFoldLink.1], _, ?_,
    List.nodup_singleton _, ?_, List.Subperm.refl _⟩
  · rw [(names_of_isOutput houtputs).1]
    simp [foldQuery, ScopeColumn.ofOutput, Function.comp_def]
  · intro link hlink
    rw [List.mem_singleton.1 hlink]
    exact ⟨_, Nat.succ_pos _, .inr rfl⟩

/-- What is known of the columns that an emission exposes: but for the column that links it to the
scope above, they are outputs, and its selects expose no other outputs. -/
structure ScopeEmission.Exposes (emission : ScopeEmission) (entry : Option RecursionEntry) :
    Prop where
  links : linkNames emission.query.columns = entry.toList.map RecursionEntry.link
  selects : ∀ select ∈ Sql.plainSelects emission.ctes,
    select.ExposesAmong (outputNames emission.query.columns)

/-- What a scope without its recursions exposes. -/
theorem BaseMade.exposes {target : Target} {entry : Option RecursionEntry} {group : Group}
    {folds : List Group} {members : Members} {emission : ScopeEmission}
    {supply later : Sql.AliasSupply}
    (h : BaseMade target entry group folds members emission supply later) :
    emission.Exposes entry := by
  obtain ⟨table, start, outputs, folded, filters, bound, -, -, -, -, hfolded, -, rfl⟩ := h
  have hentry : ∀ c ∈ entryColumns entry, ¬ c.isOutput := by
    cases entry <;> simp [entryColumns, ScopeColumn.link, ScopeColumn.isOutput]
  have hfolds : ∀ c ∈ folded.flatMap FoldQuery.columns, c.isOutput := by
    intro c hc
    obtain ⟨query, hquery, hc⟩ := List.mem_flatMap.1 hc
    obtain ⟨fold, -, _, _, owner, -, hmade⟩ := hfolded.exists_of_mem hquery
    exact hmade.exposes.1 c hc
  refine ⟨?_, ?_⟩
  · rw [baseEmission, linkNames_append, linkNames_append, (names_of_not_isOutput hentry).2,
      (names_of_isOutput hfolds).2, (names_of_isOutput ?_).2]
    · cases entry <;> rfl
    · intro c hc
      obtain ⟨output, -, rfl⟩ := List.mem_map.1 hc
      rfl
  · intro select hselect
    obtain ⟨cte, hcte, hplain⟩ := List.mem_filterMap.1 hselect
    obtain ⟨query, hquery, rfl⟩ := List.mem_map.1 hcte
    obtain ⟨fold, -, _, _, owner, -, hmade⟩ := hfolded.exists_of_mem hquery
    obtain ⟨-, found, hfound, hexposes⟩ := hmade.exposes
    obtain rfl := Option.some.inj (hplain.symm.trans hfound)
    refine hexposes.mono ?_
    rw [baseEmission, outputNames_append]
    have hsublist : query.columns.Sublist (folded.flatMap FoldQuery.columns) :=
      List.sublist_flatten_of_mem (List.mem_map_of_mem hquery)
    exact ((hsublist.filter _).map _).subperm.trans (List.sublist_append_right _ _).subperm

theorem names_map_readFrom (columns : List ScopeColumn) (cte : String) :
    outputNames (columns.map (·.readFrom cte)) = outputNames columns ∧
      linkNames (columns.map (·.readFrom cte)) = linkNames columns := by
  refine ⟨?_, ?_⟩
  · rw [outputNames, List.filter_map, List.map_map]
    rfl
  · rw [linkNames, List.filter_map, List.map_map]
    rfl

/-- What is kept of columns: all outputs, and the link to the scope above. -/
theorem names_kept (entry : Option RecursionEntry) (columns : List ScopeColumn) :
    outputNames (kept entry columns) = outputNames columns ∧
      linkNames (kept entry columns) =
        (linkNames columns).filter fun name => some name == entry.map RecursionEntry.link := by
  refine ⟨?_, ?_⟩
  · rw [outputNames, kept, List.filter_filter]
    congr 1
    apply List.filter_congr
    intro column _
    cases column.isOutput <;> simp
  · rw [linkNames, kept, List.filter_filter, linkNames, List.filter_map, List.filter_filter]
    congr 1
    apply List.filter_congr
    intro column _
    cases column.isOutput <;> simp

/-- A name that has been taken for a column that links a scope with a recursion. -/
def Sql.AliasSupply.HasLink (supply : Sql.AliasSupply) (name : String) : Prop :=
  ∃ number, 0 < number ∧ number ≤ supply.links ∧ name = Sql.numbered "__link" number

theorem Sql.AliasSupply.HasLink.linkName {supply : Sql.AliasSupply} {name : String}
    (h : supply.HasLink name) : Sql.LinkName name := by
  obtain ⟨number, hpositive, -, hname⟩ := h
  exact ⟨number, hpositive, .inl hname⟩

theorem Sql.AliasSupply.HasLink.mono {supply later : Sql.AliasSupply} {name : String}
    (h : supply.HasLink name) (hlater : supply.Before later) : later.HasLink name := by
  obtain ⟨number, hpositive, hnumber, hname⟩ := h
  exact ⟨number, hpositive, Nat.le_trans hnumber hlater.links, hname⟩

/-- A scope exposes its columns properly if the link to the scope above was numbered before. -/
def ExposesAfter (_ : Scope) (entry : Option RecursionEntry) (emission : ScopeEmission)
    (supply later : Sql.AliasSupply) : Prop :=
  supply.Before later ∧
    ((∀ e ∈ entry, supply.HasLink e.link) →
      emission.Exposes entry)

theorem AttachedMade.before {target : Target} {scopeRoot : Node} {scopeCte : String}
    {source : Scope × String} {attached : AttachedRecursion} {supply later : Sql.AliasSupply}
    (h : AttachedMade target ExposesAfter scopeRoot scopeCte source attached supply later) :
    supply.Before later := by
  obtain ⟨table, entry, emission, walked, bound, htable, ⟨hscope, -⟩, rfl, rfl⟩ := h
  exact (htable.takes.1.before.trans hscope).trans (before_next _ _)

/-- What the scope of an attached recursion exposes. -/
theorem AttachedMade.exposes {target : Target} {scopeRoot : Node} {scopeCte : String}
    {source : Scope × String} {attached : AttachedRecursion} {supply later : Sql.AliasSupply}
    (h : AttachedMade target ExposesAfter scopeRoot scopeCte source attached supply later)
    (hlink : supply.HasLink source.2) :
    (∀ c ∈ attached.columns, c.isOutput) ∧
      ∀ select ∈ Sql.plainSelects attached.ctes,
        select.ExposesAmong (outputNames attached.columns) := by
  obtain ⟨table, entry, emission, walked, bound, htable, ⟨-, hscope⟩, rfl, rfl⟩ := h
  have hentry : entry.link = source.2 := by
    obtain ⟨walk, step, combinator, -, -, -, -, rfl⟩ := htable
    rfl
  have hexposes : emission.Exposes (some entry) := by
    apply hscope
    intro e he
    obtain rfl := Option.some.inj he
    exact hentry ▸ hlink.mono htable.takes.1.before
  have houtputs : ∀ c ∈ (attach scopeRoot scopeCte source.1.node source.2 table
      (bound.nextCte .scope).1 emission).columns, c.isOutput := by
    intro c hc
    obtain ⟨column, hcolumn, rfl⟩ := List.mem_map.1 hc
    exact (List.mem_filter.1 hcolumn).2
  have hnames : outputNames (attach scopeRoot scopeCte source.1.node source.2 table
      (bound.nextCte .scope).1 emission).columns = outputNames emission.query.columns := by
    rw [attach, (names_map_readFrom _ _).1, outputNames, List.filter_filter]
    simp [outputNames]
  refine ⟨houtputs, ?_⟩
  rw [hnames, htable.plainSelects_attach]
  intro select hselect
  rcases List.mem_append.1 hselect with hselect | hselect
  · exact hexposes.selects select hselect
  · obtain rfl := List.mem_singleton.1 hselect
    apply ScopeQuery.exposesAmong
    · rw [hexposes.links]
      exact List.nodup_singleton _
    · rw [hexposes.links]
      intro link hmem
      rw [List.mem_singleton.1 hmem, hentry]
      exact hlink.linkName

/-- The link columns of a scope differ from each other and from the link to the scope above. -/
theorem linkNames_append_links {target : Target} {entry : Option RecursionEntry} {group : Group}
    {folds : List Group} {recursions : List Scope} {members : Members} {base : ScopeEmission}
    {links : List ScopeColumn} {supply based linked : Sql.AliasSupply}
    (hbase : BaseMade target entry group folds members base supply based)
    (hlinks : Steps (LinkMade target members) recursions links based linked)
    (hentry : ∀ e ∈ entry, supply.HasLink e.link) :
    outputNames (base.query.columns ++ links) = outputNames base.query.columns ∧
      linkNames (base.query.columns ++ links) =
        entry.toList.map RecursionEntry.link ++ links.map ScopeColumn.aliasName ∧
      (linkNames (base.query.columns ++ links)).Nodup ∧
      ∀ link ∈ linkNames (base.query.columns ++ links), Sql.LinkName link := by
  obtain ⟨-, -, hnames⟩ := linkNames_of_linksMade hlinks
  have hnot : ∀ c ∈ links, ¬ c.isOutput := by
    intro c hc
    obtain ⟨recursion, -, _, _, owner, table, key, -, -, -, -, rfl, -⟩ := hlinks.exists_of_mem hc
    simp [ScopeColumn.link, ScopeColumn.isOutput]
  have hall : linkNames (base.query.columns ++ links) =
      entry.toList.map RecursionEntry.link ++ links.map ScopeColumn.aliasName := by
    rw [linkNames_append, hbase.exposes.links, (names_of_not_isOutput hnot).2]
  refine ⟨?_, hall, ?_, ?_⟩
  · rw [outputNames_append, (names_of_not_isOutput hnot).1, List.append_nil]
  · rw [hall, hnames, List.nodup_append']
    refine ⟨?_, ?_, ?_⟩
    · cases entry <;> simp
    · refine List.Nodup.map (fun _ _ hsame => (Sql.numbered_inj.1 hsame).2) List.nodup_range'
    · intro link hfirst hsecond
      obtain ⟨e, he, rfl⟩ := List.mem_map.1 hfirst
      obtain ⟨number, -, hnumber, hlink⟩ := hentry e (by simpa using he)
      obtain ⟨other, hother, hsame⟩ := List.mem_map.1 hsecond
      rw [hlink] at hsame
      obtain ⟨-, rfl⟩ := Sql.numbered_inj.1 hsame
      have := hbase.binds.takes.before.links
      have := (List.mem_range'_1.1 hother).1
      omega
  · rw [hall, hnames]
    intro link hlink
    rcases List.mem_append.1 hlink with hlink | hlink
    · obtain ⟨e, he, rfl⟩ := List.mem_map.1 hlink
      exact (hentry e (by simpa using he)).linkName
    · obtain ⟨number, hnumber, rfl⟩ := List.mem_map.1 hlink
      have := (List.mem_range'_1.1 hnumber).1
      exact ⟨number, by omega, .inl rfl⟩

/-- Among distinct names, only the link to the scope above is kept. -/
theorem filter_link_of_nodup {entry : Option RecursionEntry} {names : List String}
    (h : (entry.toList.map RecursionEntry.link ++ names).Nodup) :
    (entry.toList.map RecursionEntry.link ++ names).filter
        (fun name => some name == entry.map RecursionEntry.link) =
      entry.toList.map RecursionEntry.link := by
  cases entry with
  | none => simp
  | some e =>
      have hother : ∀ name ∈ names, name ≠ e.link := by
        rintro name hname rfl
        exact (List.nodup_append'.1 h).2.2 List.mem_cons_self hname
      have hrest : names.filter (fun name => some name == (some e).map RecursionEntry.link) =
          [] := by
        rw [List.filter_eq_nil_iff]
        intro name hname
        simpa using hother name hname
      rw [List.filter_append, hrest]
      simp

/-- What each of the recursions of a scope exposes. -/
theorem exposes_of_mem_attached {target : Target} {members : Members} {recursions : List Scope}
    {links : List ScopeColumn} {based linked later : Sql.AliasSupply} {scopeRoot : Node}
    {attached : List AttachedRecursion}
    (hlinks : Steps (LinkMade target members) recursions links based linked)
    (hattached : Steps (AttachedMade target ExposesAfter scopeRoot (linked.nextCte .scope).1)
      (recursions.zip (links.map ScopeColumn.aliasName)) attached
      (linked.nextCte .scope).2 later) :
    ∀ recursion ∈ attached, (∀ c ∈ recursion.columns, c.isOutput) ∧
      ∀ select ∈ Sql.plainSelects recursion.ctes,
        select.ExposesAmong (outputNames recursion.columns) := by
  intro recursion hrecursion
  obtain ⟨-, hafter⟩ := hattached.forall₂_after fun _ _ _ _ hmade => hmade.before
  obtain ⟨source, hsource, start, _, hstart, hmade⟩ := exists_left_of_forall₂ hafter hrecursion
  apply hmade.exposes
  -- All links of the scope are numbered before the first of its recursions is emitted.
  obtain ⟨-, hcount, hnames⟩ := linkNames_of_linksMade hlinks
  have hname : source.2 ∈ links.map ScopeColumn.aliasName := (List.of_mem_zip hsource).2
  rw [hnames] at hname
  obtain ⟨number, hnumber, hlink⟩ := List.mem_map.1 hname
  have := List.mem_range'_1.1 hnumber
  have := hstart.links
  have : (linked.nextCte .scope).2.links = linked.links := rfl
  exact ⟨number, by omega, by omega, hlink.symm⟩

/-- What a scope with its recursions exposes. -/
theorem BaseMade.exposes_wrapped {target : Target} {entry : Option RecursionEntry} {group : Group}
    {folds : List Group} {recursions : List Scope} {members : Members} {base : ScopeEmission}
    {links : List ScopeColumn} {attached : List AttachedRecursion}
    {supply based linked later : Sql.AliasSupply}
    (hbase : BaseMade target entry group folds members base supply based)
    (hlinks : Steps (LinkMade target members) recursions links based linked)
    (hattached : Steps (AttachedMade target ExposesAfter group.node (linked.nextCte .scope).1)
      (recursions.zip (links.map ScopeColumn.aliasName)) attached (linked.nextCte .scope).2 later)
    (hentry : ∀ e ∈ entry, supply.HasLink e.link) :
    (wrappedEmission entry base links (linked.nextCte .scope).1 attached).Exposes entry := by
  obtain ⟨houtputs, hlinkNames, hnodup, hlinked⟩ := linkNames_append_links hbase hlinks hentry
  have hmade := exposes_of_mem_attached hlinks hattached
  have hbelow : ∀ c ∈ attached.flatMap AttachedRecursion.columns, c.isOutput := by
    intro c hc
    obtain ⟨recursion, hrecursion, hc⟩ := List.mem_flatMap.1 hc
    exact (hmade recursion hrecursion).1 c hc
  -- The links serve the joins with the recursions and are dropped, but for the one upwards.
  have hcolumns : outputNames (wrappedEmission entry base links (linked.nextCte .scope).1
      attached).query.columns =
        outputNames base.query.columns ++
          outputNames (attached.flatMap AttachedRecursion.columns) := by
    rw [wrappedEmission, outputNames_append, (names_map_readFrom _ _).1, (names_kept _ _).1,
      houtputs]
  refine ⟨?_, ?_⟩
  · rw [wrappedEmission, linkNames_append, (names_map_readFrom _ _).2, (names_kept _ _).2,
      (names_of_isOutput hbelow).2, List.append_nil, hlinkNames]
    rw [hlinkNames] at hnodup
    exact filter_link_of_nodup hnodup
  · rw [plainSelects_wrappedEmission, hcolumns]
    intro select hselect
    rcases List.mem_append.1 hselect with hselect | hselect
    · have hfirst : (outputNames base.query.columns).Subperm (outputNames base.query.columns ++
          outputNames (attached.flatMap AttachedRecursion.columns)) :=
        (List.sublist_append_left _ _).subperm
      rcases List.mem_append.1 hselect with hselect | hselect
      · exact (hbase.exposes.selects select hselect).mono hfirst
      · obtain rfl := List.mem_singleton.1 hselect
        have hexposes := ScopeQuery.exposesAmong
          { base.query with columns := base.query.columns ++ links } hnodup hlinked
        rw [houtputs] at hexposes
        exact hexposes.mono hfirst
    · obtain ⟨recursion, hrecursion, hselect⟩ := List.mem_flatMap.1 hselect
      refine ((hmade recursion hrecursion).2 select hselect).mono ?_
      have hsublist : recursion.columns.Sublist (attached.flatMap AttachedRecursion.columns) :=
        List.sublist_flatten_of_mem (List.mem_map_of_mem hrecursion)
      exact ((hsublist.filter _).map _).subperm.trans (List.sublist_append_right _ _).subperm

/-- Every emitted scope exposes its columns properly. -/
theorem exposes_of_emitScope {target : Target} {scope : Scope} {entry : Option RecursionEntry}
    {emission : ScopeEmission} {supply later : Sql.AliasSupply}
    (h : emitScope target scope entry supply = .ok (emission, later)) :
    ExposesAfter scope entry emission supply later := by
  refine emitScope_induction (motive := ExposesAfter) ?plain ?wrapped scope h
  case plain =>
    intro group folds entry members base supply later hbase
    exact ⟨hbase.binds.takes.before, fun _ => hbase.exposes⟩
  case wrapped =>
    intro group folds recursions entry members base links attached supply based linked later _ hbase
      hlinks hattached
    refine ⟨?_, fun hentry => hbase.exposes_wrapped hlinks hattached hentry⟩
    have hbefore := (linkNames_of_linksMade hlinks).1
    have hafter := (hattached.forall₂_after fun _ _ _ _ hmade => hmade.before).1
    exact ((hbase.binds.takes.before.trans hbefore).trans (before_next _ _)).trans hafter

end TraversalSql
