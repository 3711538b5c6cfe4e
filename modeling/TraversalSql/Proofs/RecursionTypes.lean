import TraversalSql.Proofs.Scoping
import TraversalSql.Proofs.ScopeFlags

/-!
The types that a recursion connects.  A recursion is checked against the type of the location that
the table declares as its parent, but it starts at the keys of the vertex that owns it, which is the
one a step back.  So the owner has the type of the recursion exactly if the declared parent has the
type of the owner, and always if the table declares no other parent.
-/

namespace TraversalSql

open Outcome

/-- The key column of the table of a type. -/
structure Schema.KeyOf (schema : Schema) (typeName : String) (table : Table) (key : String) :
    Prop where
  tableOf : schema.tableOf typeName = .ok table
  keyColumn : table.keyColumn = .ok key

/-- A type has one table and one key. -/
theorem Schema.KeyOf.unique {schema : Schema} {typeName key otherKey : String}
    {table other : Table} (h : schema.KeyOf typeName table key)
    (hother : schema.KeyOf typeName other otherKey) : table = other ∧ key = otherKey := by
  obtain rfl := Except.ok.inj (h.tableOf.symm.trans hother.tableOf)
  exact ⟨rfl, Except.ok.inj (h.keyColumn.symm.trans hother.keyColumn)⟩

namespace Sql

/-- A common table expression gives out a column of a stored table under another name. -/
def Exposes (ctes : List Cte) (table : Table) (key scope link : String) : Prop :=
  ∃ select aliasName, Cte.ofSelect scope select ∈ ctes ∧
    table.reference aliasName ∈ select.source.tables ∧
    ⟨.column aliasName key, some link⟩ ∈ select.items

/-- A recursive table starts at the values of a column, and each step reaches values of a column of
a stored table. -/
def Walks (ctes : List Cte) (table : Table) (key scope link : String) : Prop :=
  ∃ name anchor step combinator aliasName,
    Cte.mk name (.recursive anchor step combinator) true ∈ ctes ∧
    ⟨.column scope link, some reachedColumn⟩ ∈ anchor.items ∧
    table.reference aliasName ∈ step.source.tables ∧
    ⟨.column aliasName key, some reachedColumn⟩ ∈ step.items

theorem Exposes.mono {ctes more : List Cte} {table : Table} {key scope link : String}
    (h : Exposes ctes table key scope link) (hmore : ctes ⊆ more) :
    Exposes more table key scope link := by
  obtain ⟨select, aliasName, hmem, hexposed⟩ := h
  exact ⟨select, aliasName, hmore hmem, hexposed⟩

theorem Walks.mono {ctes more : List Cte} {table : Table} {key scope link : String}
    (h : Walks ctes table key scope link) (hmore : ctes ⊆ more) :
    Walks more table key scope link := by
  obtain ⟨name, anchor, step, combinator, aliasName, hmem, hwalked⟩ := h
  exact ⟨name, anchor, step, combinator, aliasName, hmore hmem, hwalked⟩

end Sql

/-- A recursion has the type that is declared one level up.  Common table expressions give out the
keys of its owner, and walk from these over the keys of its own table. -/
structure Node.Fed (schema : Schema) (ctes : List Sql.Cte) (owner recursion : Node) : Prop where
  declared : recursion.relation.site.outerType.getD "" = recursion.typeName
  keys : ∃ ownerTable ownerKey table key scope link,
    schema.KeyOf owner.typeName ownerTable ownerKey ∧ schema.KeyOf recursion.typeName table key ∧
    Sql.Exposes ctes ownerTable ownerKey scope link ∧ Sql.Walks ctes table key scope link

theorem Node.Fed.mono {schema : Schema} {ctes more : List Sql.Cte} {owner recursion : Node}
    (h : Node.Fed schema ctes owner recursion) (hmore : ctes ⊆ more) :
    Node.Fed schema more owner recursion := by
  obtain ⟨ownerTable, ownerKey, table, key, scope, link, hownerKey, hkey, hexposes, hwalks⟩ :=
    h.keys
  exact ⟨h.declared, ownerTable, ownerKey, table, key, scope, link, hownerKey, hkey,
    hexposes.mono hmore, hwalks.mono hmore⟩

/-- A step reaches a key of the table to which it belongs. -/
theorem Recursion.StepMade.exists_key {recursion : Recursion} {target : Target}
    {step : Sql.Select} {supply later : Sql.AliasSupply}
    (h : recursion.StepMade target step supply later) :
    ∃ table key next, target.schema.KeyOf recursion.vertexType table key ∧
      table.reference next ∈ step.source.tables ∧
      ⟨.column next key, some Sql.reachedColumn⟩ ∈ step.items := by
  cases h with
  | @fromKey table key joined _ _ htable hkey hpath =>
      obtain ⟨found, hfound, hmem⟩ := hpath.exists_reference
      obtain rfl := Except.ok.inj (htable.symm.trans hfound)
      refine ⟨table, key, _, ⟨htable, hkey⟩, List.mem_cons_of_mem _ ?_,
        List.mem_cons_of_mem _ List.mem_cons_self⟩
      have htables : (joinsFromKey (recursion.column Sql.reachedColumn) joined).map Sql.Join.table =
          joined.map JoinHop.table := by
        cases joined <;> simp [joinsFromKey, JoinHop.join, Function.comp_def]
      rw [stepSelect, htables]
      exact hmem
  | @fromRow table key joined _ _ _ current htable hkey _ hpath =>
      obtain ⟨found, hfound, hmem⟩ := hpath.exists_reference
      obtain rfl := Except.ok.inj (htable.symm.trans hfound)
      refine ⟨table, key, _, ⟨htable, hkey⟩, List.mem_cons_of_mem _ ?_,
        List.mem_cons_of_mem _ List.mem_cons_self⟩
      rw [stepSelect, List.map_cons, List.map_map]
      exact List.mem_cons_of_mem _ hmem

/-- A recursive table walks from the column that feeds it over the keys of its own type. -/
theorem TableMade.walks {target : Target} {scopeCte link : String} {recursion : Node}
    {table : Sql.Cte} {entry : RecursionEntry} {supply later : Sql.AliasSupply}
    (h : TableMade target scopeCte link recursion table entry supply later) {ctes : List Sql.Cte}
    (hmem : table ∈ ctes) :
    recursion.relation.site.outerType.getD "" = recursion.typeName ∧
      ∃ found key, target.schema.KeyOf recursion.typeName found key ∧
        Sql.Walks ctes found key scopeCte link := by
  obtain ⟨walk, step, combinator, hwalk, hstep, -, rfl, -⟩ := h
  obtain ⟨depth, traversal, -, -, hsame, rfl⟩ := Recursion.exists_of_ofRelation hwalk
  obtain ⟨found, key, next, hkey, htable, hitem⟩ := hstep.exists_key
  refine ⟨hsame, found, key, hkey, _, _, step, combinator, next, hmem, ?_, htable, hitem⟩
  simp [Recursion.anchor, Recursion.startKey]

theorem Members.id_of_owner {members : Members} {node : Node} {owner : Member}
    (h : members.owner node = .ok owner) : node.parent = some owner.node.id := by
  obtain ⟨id, hparent, hfind⟩ := Option.bind_eq_some_iff.1 (Members.owner_eq_ok_iff.1 h)
  have hid : owner.node.id = id := by simpa using List.find?_some hfind
  rw [hparent, hid]

/-- All recursions of a scope, and of the scopes within it, are fed by their owners. -/
def FeedsRecursions (schema : Schema) (root : Scope) (ctes : List Sql.Cte) : Prop :=
  ∀ scope, Scope.Within root scope → ∀ recursion ∈ scope.recursions,
    ∃ owner ∈ scope.group.nodes, recursion.node.parent = some owner.id ∧
      Node.Fed schema ctes owner recursion.node

/-- The link column of a recursion gives out the key of its owner. -/
theorem LinkMade.exists_exposed {target : Target} {entry : Option RecursionEntry} {group : Group}
    {folds : List Group} {members : Members} {base : ScopeEmission} {recursion : Scope}
    {column : ScopeColumn} {supply based linked later : Sql.AliasSupply}
    (hbase : BaseMade target entry group folds members base supply based)
    (h : LinkMade target members recursion column linked later) {links : List ScopeColumn}
    (hcolumn : column ∈ links) {ctes : List Sql.Cte} {scopeCte : String}
    (hctes : Sql.Cte.ofSelect scopeCte
      ({ base.query with columns := base.query.columns ++ links } : ScopeQuery).select ∈ ctes) :
    ∃ owner ∈ group.nodes, recursion.node.parent = some owner.id ∧ ∃ table key,
      target.schema.KeyOf owner.typeName table key ∧
        Sql.Exposes ctes table key scopeCte column.aliasName := by
  obtain ⟨owner, table, key, howner, -, htable, hkey, rfl, -⟩ := h
  have hmem := Members.mem_bound_of_owner howner
  have hnode : owner.node ∈ group.nodes := by
    obtain ⟨_, _, _, _, _, _, -, -, hmembers, -⟩ := hbase
    obtain ⟨_, -, hnodes, -⟩ := exists_bindings_of_bindGroup _ hmembers
    rw [← hnodes]
    exact List.mem_map_of_mem hmem
  obtain ⟨found, hfound, hreference⟩ := hbase.boundIn_select owner hmem
  obtain rfl := Except.ok.inj (htable.symm.trans hfound)
  refine ⟨owner.node, hnode, Members.id_of_owner howner, table, key, ⟨htable, hkey⟩, _,
    owner.aliasName, hctes, hreference, ?_⟩
  exact List.mem_map.2 ⟨_, List.mem_append_right _ hcolumn, rfl⟩

/-- A recursion, its link column and what is attached for it stand at the same place. -/
theorem exists_attached_of_mem {target : Target} {members : Members} {recursions : List Scope}
    {emitted : Scope → Option RecursionEntry → ScopeEmission → Sql.AliasSupply →
      Sql.AliasSupply → Prop} {scopeRoot : Node} {scopeCte : String} {links : List ScopeColumn}
    {attached : List AttachedRecursion} {supply linked started later : Sql.AliasSupply}
    (hlinks : Steps (LinkMade target members) recursions links supply linked)
    (hattached : Steps (AttachedMade target emitted scopeRoot scopeCte)
      (recursions.zip (links.map ScopeColumn.aliasName)) attached started later)
    {recursion : Scope} (h : recursion ∈ recursions) :
    ∃ column ∈ links, ∃ made ∈ attached,
      (∃ supply later, LinkMade target members recursion column supply later) ∧
      ∃ supply later, AttachedMade target emitted scopeRoot scopeCte
        (recursion, column.aliasName) made supply later := by
  rw [← List.map_fst_zip hlinks.forall₂.length_eq.le] at h
  obtain ⟨⟨owned, column⟩, hcolumn, rfl⟩ := List.mem_map.1 h
  have hsource : (owned, column.aliasName) ∈
      recursions.zip (links.map ScopeColumn.aliasName) := by
    rw [List.zip_map_right]
    exact List.mem_map.2 ⟨_, hcolumn, rfl⟩
  obtain ⟨made, hmade, hattach⟩ := exists_right_of_forall₂ hattached.forall₂ hsource
  exact ⟨column, (List.of_mem_zip hcolumn).2, made, hmade,
    (List.forall₂_iff_zip.1 hlinks.forall₂).2 hcolumn, hattach⟩

/-- Every emitted scope feeds its recursions. -/
theorem feedsRecursions_of_emitScope {target : Target} {scope : Scope}
    {entry : Option RecursionEntry} {emission : ScopeEmission} {supply later : Sql.AliasSupply}
    (h : emitScope target scope entry supply = .ok (emission, later)) :
    FeedsRecursions target.schema scope emission.ctes := by
  refine emitScope_induction (motive := fun scope _ emission _ _ =>
    FeedsRecursions target.schema scope emission.ctes) ?plain ?wrapped scope h
  case plain =>
    intro group folds entry members base supply later _ found hwithin recursion hrecursion
    obtain rfl := hwithin.eq_of_recursions_eq_nil rfl
    exact absurd hrecursion List.not_mem_nil
  case wrapped =>
    intro group folds recursions entry members base links attached supply based linked later _ hbase
      hlinks hattached found hwithin recursion hrecursion
    have hctes : ∀ made ∈ attached, made.ctes ⊆
        (wrappedEmission entry base links (linked.nextCte .scope).1 attached).ctes := by
      intro made hmade cte hcte
      exact List.mem_append_right _ (List.mem_flatMap.2 ⟨made, hmade, hcte⟩)
    rcases hwithin.eq_or_exists with rfl | ⟨above, habove, hwithin⟩
    · obtain ⟨column, hcolumn, made, hmade, ⟨_, _, hlink⟩, _, _, hattach⟩ :=
        exists_attached_of_mem hlinks hattached hrecursion
      have hown : Sql.Cte.ofSelect (linked.nextCte .scope).1
          ({ base.query with columns := base.query.columns ++ links } : ScopeQuery).select ∈
          (wrappedEmission entry base links (linked.nextCte .scope).1 attached).ctes :=
        List.mem_append_left _ (List.mem_append_right _ (List.mem_singleton.2 rfl))
      obtain ⟨owner, howner, hparent, ownerTable, ownerKey, hownerKey, hexposes⟩ :=
        hlink.exists_exposed hbase hcolumn hown
      obtain ⟨table, _, emission, _, _, htable, -, rfl, -⟩ := hattach
      obtain ⟨hdeclared, found, key, hkey, hwalks⟩ :=
        htable.walks (hctes _ hmade List.mem_cons_self)
      exact ⟨owner, howner, hparent, hdeclared, ownerTable, ownerKey, found, key, _, _, hownerKey,
        hkey, hexposes, hwalks⟩
    · obtain ⟨column, -, made, hmade, -, _, _, hattach⟩ :=
        exists_attached_of_mem hlinks hattached habove
      obtain ⟨table, _, emission, _, _, -, hscope, rfl, -⟩ := hattach
      obtain ⟨owner, howner, hparent, hfed⟩ := hscope found hwithin recursion hrecursion
      refine ⟨owner, howner, hparent, hfed.mono fun cte hcte => hctes _ hmade ?_⟩
      exact List.mem_cons_of_mem _ (List.mem_append_left _ hcte)

namespace QueryTree

/-- A recursion of a tree belongs to the scope in which its owner is joined. -/
theorem exists_recursion_of_hangs {tree : QueryTree} (htree : Rooted tree.nodes) {root : Scope}
    (hroot : tree.rootScope? = some root) (hunnested : root.Unnested) {owner node : Node}
    (hhangs : tree.Hangs owner node) (hkind : node.relation.kind.isRecursion) :
    ∃ scope, Scope.Within root scope ∧ ∃ recursion ∈ scope.recursions, recursion.node = node := by
  obtain ⟨-, -, hscopes⟩ := rootScope?_eq_some hroot
  have harranged := htree.arranged
  obtain ⟨scope, hwithin, hmem | ⟨fold, hfold, hmem⟩⟩ :=
    places_of_mem htree hroot hunnested hhangs.above_mem
  · have hcut := Scope.cutFrom_of_mem_scopes harranged (hwithin.mem_scopes harranged hscopes)
    exact ⟨scope, hwithin,
      (hcut.closed node hhangs.below_mem owner hmem hhangs.parent).2.2 hkind⟩
  · -- A vertex of a fold owns no recursion.
    have hlisted :=
      (harranged.listed hhangs.above_mem hhangs.below_mem hhangs.parent).2 hkind
    rw [(hunnested scope hwithin fold hfold owner hmem).1] at hlisted
    exact absurd hlisted List.not_mem_nil

/-- Each recursion of a tree that is emitted is fed by its owner. -/
theorem fed_of_emission {tree : QueryTree} (htree : Rooted tree.nodes) {target : Target}
    {emission : ScopeEmission} (h : tree.emission target = .ok emission) {owner node : Node}
    (hhangs : tree.Hangs owner node) (hkind : node.relation.kind.isRecursion) :
    Node.Fed target.schema emission.ctes owner node := by
  obtain ⟨root, made, later, hroot, hmade, -, rfl⟩ := exists_of_emission_eq_ok h
  have hunnested := (binds_of_emitScope hmade).unnested
  obtain ⟨scope, hwithin, recursion, hrecursion, rfl⟩ :=
    exists_recursion_of_hangs htree hroot hunnested hhangs hkind
  obtain ⟨found, hfound, hparent, hfed⟩ :=
    feedsRecursions_of_emitScope hmade scope hwithin recursion hrecursion
  obtain ⟨-, -, hscopes⟩ := rootScope?_eq_some hroot
  have hmem := (Scope.cutFrom_of_mem_scopes htree.arranged
    (hwithin.mem_scopes htree.arranged hscopes)).mem found hfound
  have hid : found.id = owner.id := Option.some.inj (hparent.symm.trans hhangs.parent)
  obtain rfl := List.inj_on_of_nodup_map htree.arranged.distinct hmem hhangs.above_mem hid
  exact hfed

end QueryTree

/-- The type one level up is that of the declared parent, or else of the location one step back. -/
theorem Walk.typeName?_of_outerType {types : TypeTable} {location above : Location}
    {outer : Option String} (h : outerType types location = .ok outer)
    (hparent : location.parent? = some above) :
    types.typeName? ((types.parent? location).getD above) = outer ∧ outer.isSome := by
  unfold outerType at h
  rw [hparent] at h
  have hor : (types.parent? location).or (some above) =
      some ((types.parent? location).getD above) := by
    cases types.parent? location <;> rfl
  rw [hor] at h
  simp only at h
  split at h
  · next typeName htype =>
    obtain rfl := Except.ok.inj h
    exact ⟨htype, rfl⟩
  · exact absurd h (by simp)

namespace Query

variable {query : Query} {read : Blocks} {tree : QueryTree}

theorem Effect.outerType {types : TypeTable} {marked : Option Location} {walk after : Walk}
    {instruction : Instruction} {entered : List Relation}
    (h : Effect types marked walk instruction entered after) :
    ∀ relation ∈ entered,
      Walk.outerType types relation.location = .ok relation.site.outerType := by
  cases h with
  | start _ _ henter | cross _ _ _ _ _ _ henter =>
      obtain ⟨-, typeName, outer, -, houter, hsite, -⟩ := Walk.enter_eq_ok_iff.1 henter
      rw [List.forall_mem_singleton, houter, hsite]
  | unfold | backtrack | mark | filter | output => simp

/-- The type one level up of each vertex is that of the location declared as its parent. -/
theorem outerType_of_blocks (h : query.blocks = .ok read) :
    ∀ relation ∈ read.relations,
      Walk.outerType query.types relation.location = .ok relation.site.outerType := by
  obtain ⟨walk, hall⟩ := invariant_of_blocks
    (P := fun _ _ blocks => ∀ relation ∈ blocks.filterMap Block.relation?,
      Walk.outerType query.types relation.location = .ok relation.site.outerType)
    (by simp)
    (by
      intro index walk after instruction rest earlier blocks hearlier hread relation hrelation
      rw [List.filterMap_append] at hrelation
      rcases List.mem_append.1 hrelation with hrelation | hrelation
      · exact hearlier relation hrelation
      · exact (effect_of_readInstruction hread).outerType relation hrelation)
    (fun h => h) h
  exact hall

/-- The types on both sides of a recursion.  A recursion of a query that compiles has the type of
the location that the table declares as its parent, or else of its owner one step back; so it has
the type of its owner exactly if these two have the same type, and always if no other parent is
declared.  The statement gives out the keys of the owner and walks from them over the keys of the
recursion, and these are keys of one table if the types are the same. -/
theorem recursion_types {target : Target} {statement : Sql.Statement}
    (h : query.compile target = .ok statement) :
    ∃ tree, query.tree = .ok tree ∧ ∀ owner node, tree.Hangs owner node →
      node.relation.kind.isRecursion →
      query.types.typeName? ((query.types.parent? node.location).getD owner.location) =
          some node.typeName ∧
        (node.typeName = owner.typeName ↔
          query.types.typeName? ((query.types.parent? node.location).getD owner.location) =
            query.types.typeName? owner.location) ∧
        ((∀ parent ∈ query.types.parent? node.location, parent = owner.location) →
          node.typeName = owner.typeName) ∧
        ∃ ownerTable ownerKey table key scope link,
          target.schema.KeyOf owner.typeName ownerTable ownerKey ∧
          target.schema.KeyOf node.typeName table key ∧
          Sql.Exposes statement.ctes ownerTable ownerKey scope link ∧
          Sql.Walks statement.ctes table key scope link ∧
          (node.typeName = owner.typeName → ownerTable = table ∧ ownerKey = key) := by
  obtain ⟨read, tree, emission, hread, hofBlocks, htree, hemission, -, hctes, -⟩ :=
    exists_of_compile_eq_ok h
  obtain ⟨hassemblable, rfl⟩ := ofBlocks_eq_ok_iff.1 hofBlocks
  have hplanted := hassemblable.planted
  refine ⟨read.tree, htree, fun owner node hhangs hkind => ?_⟩
  have hfed := QueryTree.fed_of_emission (Blocks.rooted_tree hplanted) hemission hhangs hkind
  have htypes : ∀ node ∈ read.tree.nodes,
      query.types.typeName? node.location = some node.typeName := by
    intro node hnode
    exact (reading_of_blocks hread).typeName _ (mem_relations_of_mem_tree hnode)
  have hdeclared : query.types.typeName?
      ((query.types.parent? node.location).getD owner.location) = some node.typeName := by
    obtain ⟨crossing, hcrossing⟩ := exists_crossing_of_hangs hread hplanted hhangs
    obtain ⟨-, hextends⟩ := extends_of_hangs hread hplanted hhangs hcrossing
    have houter := outerType_of_blocks hread _ (mem_relations_of_mem_tree hhangs.below_mem)
    obtain ⟨htype, hsome⟩ := Walk.typeName?_of_outerType houter hextends.parent
    obtain ⟨outer, houter⟩ := Option.isSome_iff_exists.1 hsome
    have hsame := hfed.declared
    rw [houter] at htype hsame
    rw [← hsame]
    exact htype
  have hsame : node.typeName = owner.typeName ↔
      query.types.typeName? ((query.types.parent? node.location).getD owner.location) =
        query.types.typeName? owner.location := by
    rw [hdeclared, htypes owner hhangs.above_mem, Option.some.injEq]
  refine ⟨hdeclared, hsame, fun hplain => hsame.2 ?_, ?_⟩
  · cases hparent : query.types.parent? node.location with
    | none => rfl
    | some parent => rw [Option.getD_some, hplain parent hparent]
  · rw [hctes]
    obtain ⟨ownerTable, ownerKey, table, key, scope, link, hownerKey, hkey, hexposes, hwalks⟩ :=
      hfed.keys
    refine ⟨ownerTable, ownerKey, table, key, scope, link, hownerKey, hkey, hexposes, hwalks, ?_⟩
    intro htype
    exact hownerKey.unique (htype ▸ hkey)

/-- The ancestors of the farm are walked over the table of the animals from which they start. -/
theorem recursion_types_pedigree :
    ∃ statement tree, (ofPattern pedigree).compile farm = .ok statement ∧
      (ofPattern pedigree).tree = .ok tree ∧ ∃ owner node, tree.Hangs owner node ∧
        node.relation.kind.isRecursion ∧ node.typeName = owner.typeName ∧
        ∃ table key scope link, farm.schema.KeyOf node.typeName table key ∧
          Sql.Exposes statement.ctes table key scope link ∧
          Sql.Walks statement.ctes table key scope link := by
  obtain ⟨statement, hstatement⟩ := exists_compile_pedigree
  obtain ⟨tree, htree, hall⟩ := recursion_types hstatement
  have hknown : (ofPattern pedigree).tree = .ok pedigree.tree := by cbv
  obtain rfl := Except.ok.inj (htree.symm.trans hknown)
  have hfound : ∃ owner ∈ pedigree.tree.nodes, ∃ node ∈ pedigree.tree.nodes,
      node.parent = some owner.id ∧ node.relation.kind.isRecursion ∧
      ∀ parent ∈ (ofPattern pedigree).types.parent? node.location, parent = owner.location := by
    decide
  obtain ⟨owner, howner, node, hnode, hparent, hkind, hplain⟩ := hfound
  obtain ⟨-, -, hsame, ownerTable, ownerKey, table, key, scope, link, -, hkey, hexposes, hwalks,
    hequal⟩ := hall owner node ⟨howner, hnode, hparent⟩ hkind
  obtain ⟨rfl, rfl⟩ := hequal (hsame hplain)
  exact ⟨statement, _, hstatement, htree, owner, node, ⟨howner, hnode, hparent⟩, hkind,
    hsame hplain, _, _, scope, link, hkey, hexposes, hwalks⟩

/-- Animals with their owners, and animals that are reached from the owners as if these were their
young. -/
def estranged : Pattern where
  startClass := "Animal"
  vertex := ⟨"Animal", [], [⟨"name", "animal"⟩]⟩
  branches := .branch ⟨⟨"owns", .inward⟩, .mandatory⟩ ⟨"Person", [], [⟨"name", "owner"⟩]⟩
    (.branch ⟨⟨"child", .inward⟩, .recurse 2⟩ ⟨"Animal", [], [⟨"name", "ancestor"⟩]⟩ .none .none)
    .none

/-- The query declares the first animal as the parent of the recursion. -/
def misdeclared : Query where
  instructions := estranged.stream
  types := ⟨estranged.types.entries.insert ⟨["Animal", "in_owns", "in_child"]⟩
    ⟨"Animal", some ⟨["Animal"]⟩⟩⟩

/-- The recursion walks over animals from the keys of persons. -/
theorem recursion_from_other_type :
    ∃ statement tree, misdeclared.compile farm = .ok statement ∧ misdeclared.tree = .ok tree ∧
      ∃ owner node, tree.Hangs owner node ∧ node.relation.kind.isRecursion ∧
        owner.typeName = "Person" ∧ node.typeName = "Animal" := by
  have hcompiles : (misdeclared.compile farm).isOk = true := by cbv
  have hfound : misdeclared.tree.map (fun tree => decide (∃ owner ∈ tree.nodes,
      ∃ node ∈ tree.nodes, node.parent = some owner.id ∧ node.relation.kind.isRecursion ∧
        owner.typeName = "Person" ∧ node.typeName = "Animal")) = .ok true := by
    cbv
  obtain ⟨tree, htree, hfound⟩ := map_eq_ok_iff.1 hfound
  obtain ⟨owner, howner, node, hnode, hparent, hkind, htypes⟩ := of_decide_eq_true hfound
  obtain ⟨statement, hstatement⟩ := exists_of_isOk hcompiles
  exact ⟨statement, tree, hstatement, htree, owner, node, ⟨howner, hnode, hparent⟩, hkind, htypes⟩

end Query

end TraversalSql
