import TraversalSql.Proofs.SchemaChecks
import TraversalSql.Query.Interchange

/-!
Queries and the documents in which they are exchanged.  What is written for a query is read back as
the same query, if the depths of its recursions fit into 32 bits.  Every query that is read is of
this sort, so writing what was read and reading it again changes nothing.
-/

namespace TraversalSql

/-- The depth of a recursion fits into 32 bits. -/
def Instruction.InRange : Instruction → Prop
  | .recurse _ depth => depth ≤ Text.maxWord32
  | _ => True

/-- Queries that can be exchanged as documents. -/
def Query.Exchangeable (query : Query) : Prop :=
  ∀ instruction ∈ query.instructions, instruction.InRange

namespace Document

section Reading

variable {α : Type} {read : Document → Option α} {write : α → Document}

/-- Elements that can be read back one by one are read back as a list. -/
theorem listOf?_list_map (values : List α) (h : ∀ value ∈ values, read (write value) = some value) :
    listOf? read (.list (values.map write)) = some values := by
  change (values.map write).mapM read = some values
  induction values with
  | nil => rfl
  | cons value values ih =>
      obtain ⟨hfirst, hrest⟩ := List.forall_mem_cons.1 h
      rw [List.map_cons, List.mapM_cons, hfirst, ih hrest]
      rfl

theorem listOf?_ofTexts (texts : List String) : listOf? text? (ofTexts texts) = some texts :=
  listOf?_list_map texts fun _ _ => rfl

theorem option?_ofOption (value : Option α) (h : ∀ x, read (write x) = some x)
    (hpresent : ∀ x, (write x).isAbsent = false) :
    option? read (ofOption write value) = some value := by
  cases value with
  | none => rfl
  | some x => simp [option?, ofOption, hpresent, h]

/-- What a list is read as is read element by element. -/
theorem exists_of_mem_listOf? {d : Document} {values : List α} (h : listOf? read d = some values)
    {value : α} (hvalue : value ∈ values) : ∃ item, read item = some value := by
  obtain ⟨items, -, hread⟩ := Option.bind_eq_some_iff.1 h
  clear h
  induction items generalizing values with
  | nil =>
      obtain rfl : values = [] := by simpa using hread.symm
      exact absurd hvalue List.not_mem_nil
  | cons item items ih =>
      simp only [List.mapM_cons, Option.bind_eq_bind, Option.bind_eq_some_iff, Option.pure_def,
        Option.some.injEq] at hread
      obtain ⟨first, hfirst, rest, hrest, rfl⟩ := hread
      rcases List.mem_cons.1 hvalue with rfl | hvalue
      · exact ⟨item, hfirst⟩
      · exact ih hvalue hrest

end Reading

/-- An object in which no key is given twice is a record. -/
theorem record?_object {fields : List (String × Document)} (h : (fields.map Prod.fst).Nodup)
    (keys : List String) : record? keys (.object fields) = some fields := by
  have honce : ∀ key, (fields.filter fun field => field.1 == key).length ≤ 1 := by
    intro key
    have hcount := List.nodup_iff_count_le_one.1 h key
    rwa [List.count, List.countP_map, List.countP_eq_length_filter] at hcount
  simp [record?, fields?, honce]

theorem areSound_map_iff {α : Type} {write : α → Document} {values : List α} :
    areSound (values.map write) ↔ ∀ value ∈ values, (write value).isSound := by
  induction values with
  | nil => simp [areSound]
  | cons value values ih => simp [areSound, ih]

theorem isSound_ofTexts (texts : List String) : (ofTexts texts).isSound :=
  areSound_map_iff.2 fun _ _ => rfl

theorem isSound_ofOption {α : Type} {write : α → Document} {value : Option α}
    (h : ∀ x, (write x).isSound) : (ofOption write value).isSound := by
  cases value with
  | none => rfl
  | some x => exact h x

theorem word32?_ofNat {n : Nat} (h : n ≤ Text.maxWord32) : word32? (ofNat n) = some n := by
  have hrange : (0 : Int) ≤ n ∧ (n : Int) ≤ (Text.maxWord32 : Int) := by omega
  rw [ofNat, word32?, if_pos hrange, Int.toNat_natCast]

end Document

namespace Text

theorem le_of_appendDigits {base limit value result : Nat} {cs : List Char} (hvalue : value ≤ limit)
    (h : appendDigits base limit value cs = .ok result) : result ≤ limit := by
  induction cs generalizing value with
  | nil =>
      obtain rfl := Except.ok.inj h
      exact hvalue
  | cons c rest ih =>
      simp only [appendDigits] at h
      split at h
      · exact absurd h (by simp)
      · split at h
        · next hnext => exact ih hnext h
        · exact absurd h (by simp)

theorem le_of_readDigits {base limit result : Nat} {cs : List Char}
    (h : readDigits base limit cs = .ok result) : result ≤ limit := by
  cases cs with
  | nil => exact absurd h (by simp [readDigits])
  | cons c rest => exact le_of_appendDigits (Nat.zero_le limit) h

end Text

namespace Document

theorem le_of_plainWord32? {written : String} {n : Nat} (h : plainWord32? written = some n) :
    n ≤ Text.maxWord32 := by
  have hdigits : ∀ {base : Nat} {cs : List Char},
      (Text.readDigits base Text.maxWord32 cs).toOption = some n → n ≤ Text.maxWord32 := by
    intro base cs hread
    cases hvalue : Text.readDigits base Text.maxWord32 cs with
    | error fault => exact absurd hread (by simp [hvalue, Except.toOption])
    | ok value =>
        obtain rfl : value = n := by simpa [hvalue, Except.toOption] using hread
        exact Text.le_of_readDigits hvalue
  unfold plainWord32? at h
  dsimp only at h
  split at h
  · exact hdigits h
  · exact hdigits h
  · exact hdigits h
  · exact absurd h (by simp [Except.toOption])
  · exact hdigits h

theorem le_of_word32? {d : Document} {n : Nat} (h : d.word32? = some n) : n ≤ Text.maxWord32 := by
  unfold word32? at h
  split at h
  · split at h
    · obtain rfl := Option.some.inj h
      omega
    · exact absurd h (by simp)
  · exact le_of_plainWord32? h
  · exact absurd h (by simp)

end Document

theorem Location.ofDocument?_toDocument (location : Location) :
    ofDocument? location.toDocument = some location := by
  rw [ofDocument?, toDocument, Document.listOf?_ofTexts]
  rfl

theorem FieldRef.ofDocument?_toDocument (ref : FieldRef) :
    ofDocument? ref.toDocument = some ref := by
  have hkeys : ([("location", ref.location.toDocument), ("field", Document.text ref.field)].map
      Prod.fst).Nodup := by simp
  simp [ofDocument?, toDocument, Document.record?_object hkeys, Document.required?, List.lookup,
    Location.ofDocument?_toDocument, Document.text?]

/-- The crossing of an edge is read back from among the fields of an instruction. -/
theorem Traversal.ofFields?_toFields (traversal : Traversal) (kind : Document)
    (others : List (String × Document)) :
    ofFields? Direction.ofKept? (("type", kind) :: ("direction", traversal.direction.toDocument) ::
      ("edge_name", .text traversal.edgeName) :: others) = some traversal := by
  obtain ⟨edgeName, direction⟩ := traversal
  cases direction <;> rfl

theorem Location.isSound_toDocument (location : Location) : location.toDocument.isSound :=
  Document.isSound_ofTexts location.steps

theorem FieldRef.isSound_toDocument (ref : FieldRef) : ref.toDocument.isSound := by
  simp [toDocument, Document.isSound, Document.haveSoundValues, ref.location.isSound_toDocument]

namespace Instruction

/-- Every field of an instruction is written, also those that have defaults. -/
theorem keys_toFields (instruction : Instruction) :
    instruction.toFields.map Prod.fst = keys instruction.kind := by
  cases instruction <;> rfl

theorem nodup_keys (instruction : Instruction) :
    ("type" :: keys instruction.kind).Nodup := by
  cases instruction <;> simp [kind, keys]

theorem record?_toDocument (instruction : Instruction) (keys : List String) :
    Document.record? keys instruction.toDocument =
      some (("type", .text instruction.kind) :: instruction.toFields) := by
  apply Document.record?_object
  rw [List.map_cons, keys_toFields]
  exact instruction.nodup_keys

theorem ofDocument?_toDocument {instruction : Instruction} (h : instruction.InRange) :
    ofDocument? instruction.toDocument = some instruction := by
  have hread : ofDocument? instruction.toDocument =
      ofFields? instruction.kind (("type", .text instruction.kind) :: instruction.toFields) := by
    simp [ofDocument?, record?_toDocument, Document.required?, Document.text?]
  rw [hread]
  cases instruction with
  | start startClass => rfl
  | traverse traversal optional =>
      simp [ofFields?, kind, toFields, Traversal.ofFields?_toFields, Traversal.toFields,
        Document.defaulted?, Document.bool?, List.lookup]
  | recurse traversal depth =>
      have hdepth := Document.word32?_ofNat h
      simp [ofFields?, kind, toFields, Traversal.ofFields?_toFields, Traversal.toFields,
        Document.required?, List.lookup, hdepth]
  | fold traversal =>
      simp [ofFields?, kind, toFields, Traversal.ofFields?_toFields, Traversal.toFields]
  | unfold => rfl
  | mark location =>
      simp [ofFields?, kind, toFields, Document.required?, List.lookup,
        Location.ofDocument?_toDocument]
  | backtrack location optional =>
      simp [ofFields?, kind, toFields, Document.required?, Document.defaulted?, Document.bool?,
        List.lookup, Location.ofDocument?_toDocument]
  | filter field operator params tag =>
      have htag := Document.option?_ofOption tag FieldRef.ofDocument?_toDocument
        fun _ => rfl
      simp [ofFields?, kind, toFields, Document.required?, Document.defaulted?, Document.optional?,
        Document.text?, List.lookup, Document.listOf?_ofTexts, htag]
  | output field aliasName => rfl
  | result fields =>
      have hfields : Document.listOf? (Document.pair? Document.text? FieldRef.ofDocument?)
          (.list (fields.map fun field => .list [.text field.1, field.2.toDocument])) =
          some fields := by
        refine Document.listOf?_list_map fields fun field _ => ?_
        simp [Document.pair?, Document.list?, Document.text?, FieldRef.ofDocument?_toDocument]
      simp [ofFields?, kind, toFields, Document.required?, List.lookup, hfields]

theorem isSound_toDocument (instruction : Instruction) : instruction.toDocument.isSound := by
  have htag : ∀ tag, (Document.ofOption FieldRef.toDocument tag).isSound := fun _ =>
    Document.isSound_ofOption FieldRef.isSound_toDocument
  cases instruction <;>
    simp [toDocument, toFields, Traversal.toFields, Direction.toDocument, Document.ofNat,
      Document.isSound, Document.haveSoundValues, Document.areSound, Document.areSound_map_iff,
      Document.isSound_ofTexts, Location.isSound_toDocument, FieldRef.isSound_toDocument, htag]

/-- A depth that is read fits into 32 bits. -/
theorem le_of_ofFields? {kind : String} {fields : List (String × Document)} {traversal : Traversal}
    {depth : Nat} (h : ofFields? kind fields = some (.recurse traversal depth)) :
    depth ≤ Text.maxWord32 := by
  unfold ofFields? at h
  dsimp only at h
  split at h
  case h_3 =>
    simp only [Option.bind_eq_bind, Option.bind_eq_some_iff, Option.pure_def, Option.some.injEq,
      recurse.injEq] at h
    obtain ⟨found, hfound, crossed, -, -, rfl⟩ := h
    obtain ⟨d, -, hread⟩ := Option.bind_eq_some_iff.1 hfound
    exact Document.le_of_word32? hread
  -- Instructions of other kinds are no recursions.
  all_goals simp [Option.bind_eq_some_iff] at h

theorem inRange_of_ofDocument? {d : Document} {instruction : Instruction}
    (h : ofDocument? d = some instruction) : instruction.InRange := by
  simp only [ofDocument?, Option.bind_eq_bind, Option.bind_eq_some_iff] at h
  obtain ⟨_, -, kind, -, fields, -, hfields⟩ := h
  cases instruction with
  | recurse traversal depth => exact le_of_ofFields? hfields
  | _ => trivial

end Instruction

namespace TypeTable

theorem entryOfDocument?_entryToDocument (entry : Location × Declared) :
    entryOfDocument? (entryToDocument entry) = some entry := by
  obtain ⟨location, typeName, parent⟩ := entry
  have hparent := Document.option?_ofOption parent Location.ofDocument?_toDocument
    fun _ => rfl
  have hkeys : ([("location", location.toDocument), ("type_name", Document.text typeName),
      ("parent_location", .ofOption Location.toDocument parent)].map Prod.fst).Nodup := by simp
  simp [entryOfDocument?, entryToDocument, Document.record?_object hkeys, Document.required?,
    Document.optional?, Document.defaulted?, Document.text?, List.lookup,
    Location.ofDocument?_toDocument, hparent]

theorem ofDocument?_toDocument (table : TypeTable) :
    ofDocument? table.toDocument = some table := by
  have hentries := Document.listOf?_list_map table.toList
    fun entry _ => entryOfDocument?_entryToDocument entry
  rw [ofDocument?, toDocument, hentries, Option.map_some, ofList, toList,
    OrderedMap.ofList_entries]

theorem isSound_toDocument (table : TypeTable) : table.toDocument.isSound := by
  have hparent : ∀ parent, (Document.ofOption Location.toDocument parent).isSound := fun _ =>
    Document.isSound_ofOption Location.isSound_toDocument
  refine Document.areSound_map_iff.2 fun entry _ => ?_
  simp [entryToDocument, Document.isSound, Document.haveSoundValues, Location.isSound_toDocument,
    hparent]

end TypeTable

namespace Query

theorem ofDocument?_toDocument {query : Query} (h : query.Exchangeable) :
    ofDocument? query.toDocument = some query := by
  have hinstructions := Document.listOf?_list_map query.instructions
    fun instruction hmem => Instruction.ofDocument?_toDocument (h instruction hmem)
  have hkeys : ([("ir_blocks", Document.list (query.instructions.map Instruction.toDocument)),
      ("query_metadata", query.types.toDocument)].map Prod.fst).Nodup := by simp
  simp [ofDocument?, toDocument, Document.record?_object hkeys, Document.required?, List.lookup,
    hinstructions, TypeTable.ofDocument?_toDocument]

/-- Whatever is read as a query can be exchanged. -/
theorem exchangeable_of_ofDocument? {d : Document} {query : Query}
    (h : ofDocument? d = some query) : query.Exchangeable := by
  simp only [ofDocument?, Option.bind_eq_bind, Option.bind_eq_some_iff, Option.pure_def,
    Option.some.injEq] at h
  obtain ⟨fields, -, instructions, hinstructions, types, -, rfl⟩ := h
  obtain ⟨blocks, -, hblocks⟩ := Option.bind_eq_some_iff.1 hinstructions
  intro instruction hinstruction
  obtain ⟨item, hitem⟩ := Document.exists_of_mem_listOf? hblocks hinstruction
  exact Instruction.inRange_of_ofDocument? hitem

/-- What is written for a query denotes a value in all its parts. -/
theorem isSound_toDocument (query : Query) : query.toDocument.isSound := by
  simp [toDocument, Document.isSound, Document.haveSoundValues, Document.areSound_map_iff,
    Instruction.isSound_toDocument, query.types.isSound_toDocument]

/-- Queries and their documents.  A query that can be exchanged is read back from what is written
for it, which denotes a value and gives every field of every instruction; and its type table finds
for each location what it lists for it.  Whatever document is read as a query, the query can be
exchanged, so it is read again from what is written for it. -/
theorem documents_round_trip :
    (∀ query : Query, query.Exchangeable →
      ofDocument? query.toDocument = some query ∧ query.toDocument.isSound ∧
        (∀ instruction ∈ query.instructions,
          instruction.toFields.map Prod.fst = Instruction.keys instruction.kind) ∧
        ∀ location declared, query.types.find? location = some declared ↔
          (location, declared) ∈ query.types.toList) ∧
      ∀ d query, ofDocument? d = some query →
        query.Exchangeable ∧ ofDocument? query.toDocument = some query := by
  refine ⟨fun query h => ⟨ofDocument?_toDocument h, query.isSound_toDocument,
    fun instruction _ => instruction.keys_toFields, fun location declared => ?_⟩,
    fun d query hread => ?_⟩
  · exact OrderedMap.find?_eq_some_iff
  · have h := exchangeable_of_ofDocument? hread
    exact ⟨h, ofDocument?_toDocument h⟩

/-- Animals with the young that are named after them, and ancestors as far back as can be asked
for.  The type of the animals is declared twice. -/
def namesakes : Query where
  instructions := [
    .start "Animal", .mark ⟨["Animal"]⟩, .traverse ⟨"child", .outward⟩ true,
    .filter "name" "=" [] (some ⟨⟨["Animal"]⟩, "name"⟩), .mark ⟨["Animal", "out_child"]⟩,
    .backtrack ⟨["Animal"]⟩ true, .recurse ⟨"child", .inward⟩ 4294967295, .output "name" "ancestor",
    .mark ⟨["Animal", "in_child"]⟩, .backtrack ⟨["Animal"]⟩ false,
    .result [("ancestor", ⟨⟨["Animal", "in_child"]⟩, "name"⟩)]]
  types := (((TypeTable.ofList [(⟨["Animal"]⟩, ⟨"Plant", none⟩), (⟨["Animal"]⟩, ⟨"Animal", none⟩)]
    ).register ⟨["Animal", "out_child"]⟩ "Animal").register ⟨["Animal", "in_child"]⟩ "Animal")

/-- A document that leaves out whatever has a default, and declares a type twice. -/
def sparse : Document :=
  .object [
    ("query_metadata", .list [
      .object [("location", .list [.text "Animal"]), ("type_name", .text "Plant")],
      .object [("location", .list [.text "Animal"]), ("type_name", .text "Animal")]]),
    ("ir_blocks", .list [
      .object [("start_class", .text "Animal"), ("type", .text "QueryRoot")],
      .object [("type", .text "Traverse"), ("edge_name", .text "child"),
        ("direction", .text "out")],
      .object [("type", .text "Filter"), ("field", .text "name"), ("operator", .text "=")]])]

theorem documents_round_trip_namesakes :
    namesakes.Exchangeable ∧ ofDocument? namesakes.toDocument = some namesakes ∧
      ∃ query, ofDocument? sparse = some query ∧ query.types.size = 1 ∧
        ofDocument? query.toDocument = some query := by
  have hdepths : namesakes.Exchangeable := by
    simp [Exchangeable, namesakes, Instruction.InRange, Text.maxWord32]
  have hsparse : ofDocument? sparse = some {
      instructions := [.start "Animal", .traverse ⟨"child", .outward⟩ false,
        .filter "name" "=" [] none]
      types := .ofList [(⟨["Animal"]⟩, ⟨"Animal", none⟩)] } := by rfl
  obtain ⟨hwritten, hread⟩ := documents_round_trip
  exact ⟨hdepths, (hwritten namesakes hdepths).1, _, hsparse, rfl,
    (hread sparse _ hsparse).2⟩

end Query

end TraversalSql
