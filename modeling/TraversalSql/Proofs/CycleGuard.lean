import TraversalSql.Proofs.Matching
import TraversalSql.Proofs.Provenance

/-!
Recursive tables come to an end.  A row of a recursive table knows how many edges were crossed and
which keys were visited; a step stays below the depth that was asked for and goes to no key that was
visited, whatever characters the keys are made of.
-/

namespace TraversalSql

namespace Sql

/-- Whether a text matches a pattern, in which a percent sign stands for any text, an underscore for
any one character, and any other character for itself. -/
def like : List Char → List Char → Bool
  | [], text => text.isEmpty
  | c :: pattern, text =>
      if c = '%' then text.tails.any (like pattern)
      else
        match text with
        | [] => false
        | d :: rest => (c == '_' || c == d) && like pattern rest

theorem like_percent_append {pattern text : List Char} (h : like pattern text)
    (skipped : List Char) : like ('%' :: pattern) (skipped ++ text) := by
  simp only [like, if_true, List.any_eq_true]
  exact ⟨text, (List.mem_tails _ _).2 (List.suffix_append _ _), h⟩

theorem like_percent (text : List Char) : like ['%'] text := by
  have hempty : like [] [] := rfl
  have h := like_percent_append hempty text
  rwa [List.append_nil] at h

/-- A text matches itself, also if it holds characters that stand for others in patterns. -/
theorem like_append_append {pattern text : List Char} (h : like pattern text) (key : List Char) :
    like (key ++ pattern) (key ++ text) := by
  induction key with
  | nil => exact h
  | cons c key ih =>
      by_cases hc : c = '%'
      · subst hc
        exact like_percent_append ih ['%']
      · simpa [like, hc] using ih

/-- The text that lists the keys on the way: a comma, and each key followed by a comma. -/
def pathOf (keys : List String) : String := "," ++ String.join (keys.map fun key => key ++ ",")

theorem pathOf_concat (keys : List String) (key : String) :
    pathOf (keys ++ [key]) = pathOf keys ++ key ++ "," := by
  simp [pathOf, String.join_append, String.append_assoc]

/-- A list of keys ends with a comma. -/
theorem exists_toList_pathOf (keys : List String) :
    ∃ front, (pathOf keys).toList = front ++ [','] := by
  induction keys using List.reverseRecOn with
  | nil => exact ⟨[], rfl⟩
  | append_singleton keys key _ =>
      refine ⟨(pathOf keys).toList ++ key.toList, ?_⟩
      rw [pathOf_concat, String.toList_append, String.toList_append]
      rfl

/-- The text of a list of keys goes on after each of its keys. -/
theorem exists_toList_pathOf_append (before : List String) (key : String) (after : List String) :
    ∃ rest, (pathOf (before ++ key :: after)).toList =
      (pathOf before).toList ++ (key.toList ++ (',' :: rest)) := by
  refine ⟨(after.map fun key => key ++ ",").flatMap String.toList, ?_⟩
  simp [pathOf, List.flatMap_map]

/-- A key that is on the way is found there, between commas. -/
theorem like_pathOf {key : String} {keys : List String} (h : key ∈ keys) :
    like ("%," ++ key ++ ",%").toList (pathOf keys).toList := by
  obtain ⟨before, after, rfl⟩ := List.append_of_mem h
  obtain ⟨rest, hsplit⟩ := exists_toList_pathOf_append before key after
  obtain ⟨front, hfront⟩ := exists_toList_pathOf before
  have hpattern : ("%," ++ key ++ ",%").toList =
      '%' :: ([','] ++ (key.toList ++ ([','] ++ ['%']))) := by
    simp [String.toList_append]
  rw [hsplit, hfront, hpattern, List.append_assoc]
  apply like_percent_append
  apply like_append_append
  apply like_append_append
  exact like_append_append (like_percent rest) [',']

/-- An engine that reads texts and numbers as usual: numbers are added and ordered, texts are
concatenated and matched with patterns, and a text is its own text and path. -/
structure Engine.Usual {D : Type} (engine : Engine D) (text : String → D) (number : Int → D) :
    Prop where
  string : ∀ s, engine.constant (.string s) = some (text s)
  integer : ∀ n, engine.constant (.integer n) = some (number n)
  add : ∀ m n, engine.add (number m) (number n) = some (number (m + n))
  precedes : ∀ m n, engine.precedes (number m) (number n) = decide (m < n)
  isLike : ∀ s pattern, engine.isLike (text s) (text pattern) = like pattern.toList s.toList
  concatenate : ∀ parts, engine.concatenate (parts.map text) = some (text (String.join parts))
  toText : ∀ s, engine.toText (text s) = some (text s)
  toPath : ∀ s, engine.toPath (text s) = some (text s)

section

variable {D : Type} [DecidableEq D] (session : Session D)

omit [DecidableEq D] in
/-- The row that a select gives for what stands under its aliases. -/
def Select.project (query : Select) (environment : Environment D) : Row D :=
  query.rowOf (query.items.map fun item => item.expression.value session environment)

/-- A select gives a row for what stands under its aliases: its filters hold there. -/
def Select.Gives (query : Select) (environment : Environment D) (row : Row D) : Prop :=
  holdAll session query.filters environment ∧ row = query.project session environment

/-- Rows that a recursive table derives one from the other.  The first one comes from the anchor and
each other one from the step, whatever rows the step joins to the one before. -/
structure Derivation (name : String) (anchor step : Select) (rows : Nat → Row D) (last : Nat) :
    Prop where
  start : ∃ environment, anchor.Gives session environment (rows 0)
  next : ∀ i < last, ∃ environment : Environment D, environment name = rows i ∧
    step.Gives session environment (rows (i + 1))

variable {session}

omit [DecidableEq D] in
/-- The columns of a row of a recursive table. -/
theorem Select.project_tableColumns (query : Select) (session : Session D)
    (environment : Environment D) {start reached depth path : Expr}
    (h : query.items = [⟨start, some anchorColumn⟩, ⟨reached, some reachedColumn⟩,
      ⟨depth, some depthColumn⟩, ⟨path, some pathColumn⟩]) :
    query.project session environment reachedColumn = reached.value session environment ∧
      query.project session environment depthColumn = depth.value session environment ∧
      query.project session environment pathColumn = path.value session environment := by
  simp [Select.project, Select.rowOf, h, List.lookup, anchorColumn, reachedColumn, depthColumn,
    pathColumn]

omit [DecidableEq D] in
theorem Expr.values_eq_map (environment : Environment D) (es : List Expr) :
    Expr.values session environment es = es.map fun e => e.value session environment := by
  induction es with
  | nil => rfl
  | cons e es ih => rw [Expr.values, ih, List.map_cons]

theorem mapM_id_map_some {α : Type} (l : List α) : (l.map some).mapM id = some l := by
  induction l with
  | nil => rfl
  | cons a l ih => simp [ih]

namespace Engine.Usual

variable {text : String → D} {number : Int → D} {environment : Environment D}

omit [DecidableEq D] in
theorem value_string (h : session.Usual text number) (s : String) :
    (Expr.string s).value session environment = some (text s) := by
  rw [Expr.string, Expr.value]
  exact h.string s

omit [DecidableEq D] in
theorem value_castToText (h : session.Usual text number) {e : Expr} {s : String}
    (he : e.value session environment = some (text s)) :
    (Expr.castToText e).value session environment = some (text s) := by
  rw [Expr.value, he]
  exact h.toText s

omit [DecidableEq D] in
/-- The concatenation of three expressions that are texts. -/
theorem value_concat (h : session.Usual text number) {first second third : Expr} {s t u : String}
    (hfirst : first.value session environment = some (text s))
    (hsecond : second.value session environment = some (text t))
    (hthird : third.value session environment = some (text u)) :
    (Expr.concat [first, second, third]).value session environment =
      some (text (s ++ t ++ u)) := by
  have hvalues : Expr.values session environment [first, second, third] =
      ([s, t, u].map text).map some := by
    rw [Expr.values_eq_map, List.map_cons, List.map_cons, List.map_cons, hfirst, hsecond, hthird]
    rfl
  rw [Expr.value, hvalues, mapM_id_map_some]
  have hjoin := h.concatenate [s, t, u]
  simpa [String.append_assoc] using hjoin

/-- The order of a number and a constant. -/
theorem truth_lessThan (h : session.Usual text number) {e : Expr} {m : Int}
    (he : e.value session environment = some (number m)) (n : Int) :
    (Expr.apply .lessThan [e, .literal (.integer n)]).truth session environment =
      some (decide (m < n)) := by
  rw [Expr.truth_apply session environment (by decide) (by decide)]
  simp [Engine.test, Engine.less, Truth.compare, one_compared, he, Expr.value, h.integer,
    h.precedes]

/-- The comparison of a text with a pattern that it should not match. -/
theorem truth_notLike (h : session.Usual text number) {e pattern : Expr} {s t : String}
    (he : e.value session environment = some (text s))
    (hpattern : pattern.value session environment = some (text t)) :
    (Expr.apply .notLike [e, pattern]).truth session environment =
      some (!like t.toList s.toList) := by
  rw [Expr.truth_apply session environment (by decide) (by decide)]
  simp [Engine.test, Truth.compare, Truth.negate, one_compared, he, hpattern, h.isLike]

end Engine.Usual

end

end Sql

namespace Recursion

open Sql

variable {D : Type} [DecidableEq D] {session : Session D} {text : String → D} {number : Int → D}
  {recursion : Recursion} {environment : Environment D} {row : Row D} {key : String}

/-- A row of the anchor starts the way at its key. -/
theorem row_of_anchor (h : session.Usual text number)
    (hgives : recursion.anchor.Gives session environment row)
    (hkey : row reachedColumn = some (text key)) :
    row depthColumn = some (number 0) ∧ row pathColumn = some (text (pathOf [key])) := by
  obtain ⟨-, rfl⟩ := hgives
  obtain ⟨hreached, hdepth, hpath⟩ :=
    recursion.anchor.project_tableColumns session environment rfl
  have hstart : recursion.startKey.value session environment = some (text key) :=
    hreached.symm.trans hkey
  have hcomma : (Expr.string ",").value session environment = some (text ",") :=
    h.value_string ","
  have hconcat := h.value_concat hcomma (h.value_castToText hstart) hcomma
  rw [hdepth, hpath, Expr.value, Expr.value, hconcat]
  refine ⟨h.integer 0, ?_⟩
  rw [Option.bind_some, h.toPath]
  simp [pathOf, String.append_assoc]

/-- A step goes one edge further, to a key that was not visited, if the depth is not reached. -/
theorem row_of_step (h : session.Usual text number) {joins : List Join} {next keyColumn : String}
    {visited : List String} {edges : Nat} {further : Row D}
    (hrow : environment recursion.name = row) (hdepth : row depthColumn = some (number edges))
    (hpath : row pathColumn = some (text (pathOf visited)))
    (hgives : (recursion.stepSelect joins next keyColumn).Gives session environment further)
    (hkey : further reachedColumn = some (text key)) :
    edges < recursion.depth ∧ key ∉ visited ∧
      further depthColumn = some (number (edges + 1 : Nat)) ∧
      further pathColumn = some (text (pathOf (visited ++ [key]))) := by
  obtain ⟨hfilters, rfl⟩ := hgives
  obtain ⟨hreached, hnextDepth, hnextPath⟩ :=
    (recursion.stepSelect joins next keyColumn).project_tableColumns session environment rfl
  have hnext : (Expr.column next keyColumn).value session environment = some (text key) :=
    hreached.symm.trans hkey
  have hdepth : (recursion.column depthColumn).value session environment =
      some (number edges) := by
    rw [Recursion.column, Expr.value, hrow, hdepth]
  have hpath : (recursion.column pathColumn).value session environment =
      some (text (pathOf visited)) := by
    rw [Recursion.column, Expr.value, hrow, hpath]
  obtain ⟨hbelow, hguard, -⟩ := List.forall_mem_cons.1 (holdAll_iff.1 hfilters)
    |>.imp_right List.forall_mem_cons.1
  have hpattern := h.value_concat (h.value_string "%,") (h.value_castToText hnext)
    (h.value_string ",%")
  have hlonger := h.value_concat hpath (h.value_castToText hnext) (h.value_string ",")
  refine ⟨?_, ?_, ?_, ?_⟩
  · rw [h.truth_lessThan hdepth] at hbelow
    simpa using hbelow
  · intro hvisited
    rw [h.truth_notLike hpath hpattern, like_pathOf hvisited] at hguard
    exact absurd hguard (by simp)
  · rw [hnextDepth, Expr.value, Expr.values_eq_map, List.map_cons, List.map_cons, hdepth,
      Expr.value, h.integer]
    exact h.add edges 1
  · rw [hnextPath, hlonger, pathOf_concat]

/-- What the rows of a derivation hold: as many edges were crossed as rows come before, and all keys
on the way differ. -/
theorem rows_of_derivation (h : session.Usual text number) {joins : List Join}
    {next keyColumn : String} {rows : Nat → Row D} {last : Nat}
    (hrows : Derivation session recursion.name recursion.anchor
      (recursion.stepSelect joins next keyColumn) rows last)
    {keys : Nat → String} (hkeys : ∀ i ≤ last, rows i reachedColumn = some (text (keys i))) :
    ∀ i ≤ last, i ≤ recursion.depth ∧ rows i depthColumn = some (number i) ∧
      rows i pathColumn = some (text (pathOf ((List.range (i + 1)).map keys))) ∧
      ((List.range (i + 1)).map keys).Nodup := by
  intro i hi
  induction i with
  | zero =>
      obtain ⟨environment, hgives⟩ := hrows.start
      obtain ⟨hdepth, hpath⟩ := row_of_anchor h hgives (hkeys 0 hi)
      exact ⟨Nat.zero_le _, hdepth, hpath, List.nodup_singleton _⟩
  | succ i ih =>
      obtain ⟨-, hdepth, hpath, hnodup⟩ := ih (Nat.le_of_succ_le hi)
      obtain ⟨environment, hrow, hgives⟩ := hrows.next i hi
      obtain ⟨hbelow, hnew, hnextDepth, hnextPath⟩ :=
        row_of_step h hrow hdepth hpath hgives (hkeys (i + 1) hi)
      rw [List.range_succ, List.map_append]
      refine ⟨hbelow, hnextDepth, hnextPath, ?_⟩
      rw [List.nodup_append']
      exact ⟨hnodup, List.nodup_singleton _, by simpa using hnew⟩

/-- Recursive tables are bounded and go round no cycle.  A derivation of rows with text keys takes
no more steps than the depth of the recursion, each row counts the steps and lists the keys on the
way, and no key is visited twice. -/
theorem bounded_derivation (h : session.Usual text number) {target : Target}
    {supply later : AliasSupply} {table : Cte}
    (htable : recursion.cte target supply = .ok (table, later)) {anchor step : Select}
    {combinator : Combinator} (hcontent : table.content = .recursive anchor step combinator)
    {rows : Nat → Row D} {last : Nat}
    (hrows : Derivation session table.name anchor step rows last) {keys : Nat → String}
    (hkeys : ∀ i ≤ last, rows i reachedColumn = some (text (keys i))) :
    last ≤ recursion.depth ∧
      (∀ i ≤ last, rows i depthColumn = some (number i) ∧
        rows i pathColumn = some (text (pathOf ((List.range (i + 1)).map keys)))) ∧
      ((List.range (last + 1)).map keys).Nodup := by
  simp only [Recursion.cte, Emit.bind_eq_ok_iff, Emit.lift_eq_ok_iff, Emit.pure_eq_ok_iff] at htable
  obtain ⟨made, _, hmade, _, _, ⟨-, rfl⟩, rfl, rfl⟩ := htable
  obtain ⟨rfl, rfl, rfl⟩ := CteContent.recursive.inj hcontent
  obtain ⟨joins, next, keyColumn, rfl⟩ :
      ∃ joins next keyColumn, made = recursion.stepSelect joins next keyColumn := by
    cases stepMade_of_step hmade with
    | fromKey => exact ⟨_, _, _, rfl⟩
    | fromRow => exact ⟨_, _, _, rfl⟩
  have hall := rows_of_derivation h hrows hkeys
  refine ⟨(hall last (Nat.le_refl _)).1, fun i hi => ?_, (hall last (Nat.le_refl _)).2.2.2⟩
  exact ⟨(hall i hi).2.1, (hall i hi).2.2.1⟩

end Recursion

namespace Sql

/-- Values that are texts or numbers. -/
inductive Datum where
  | text (value : String)
  | number (value : Int)
deriving DecidableEq, Repr

namespace Datum

/-- The text that a value is. -/
def text? : Datum → Option String
  | .text value => some value
  | .number _ => none

/-- A session over texts and numbers without parameters. -/
def session : Session Datum where
  constant
    | .string value => some (.text value)
    | .integer value => some (.number value)
  verbatim value := some (.text value)
  add
    | .number m, .number n => some (.number (m + n))
    | _, _ => none
  precedes
    | .number m, .number n => decide (m < n)
    | .text s, .text t => decide (s < t)
    | _, _ => false
  isLike
    | .text s, .text pattern => like pattern.toList s.toList
    | _, _ => false
  concatenate values := (values.mapM text?).map fun parts => .text (String.join parts)
  toText
    | .text value => some (.text value)
    | .number value => some (.text (toString value))
  toPath value := some value
  aggregate _ _ := none
  one _ := none
  many _ := []

theorem usual_session : session.Usual text number where
  string _ := rfl
  integer _ := rfl
  add _ _ := rfl
  precedes _ _ := rfl
  isLike _ _ := rfl
  concatenate parts := by
    have hall : (parts.map text).mapM text? = some parts := by
      induction parts with
      | nil => rfl
      | cons part parts ih => simp [text?, ih]
    exact congrArg (Option.map fun parts => Datum.text (String.join parts)) hall
  toText _ := rfl
  toPath _ := rfl

end Datum

end Sql

namespace Recursion

open Sql

/-- The ancestors of animals up to three steps back. -/
def ancestry : Recursion where
  name := "recursion_1"
  location := ⟨["Animal", "in_child"]⟩
  vertexType := "Animal"
  traversal := ⟨"child", .inward⟩
  depth := 3
  source := "scope_1"
  link := "__link_1"

def ancestryStep : Select :=
  ancestry.stepSelect
    [⟨.inner, .table none "animal" "animal_1",
        [.equals (.column "animal_1" "id") (.column "recursion_1" reachedColumn)]⟩,
      ⟨.inner, .table none "animal" "animal_2",
        [.equals (.column "animal_1" "parent_id") (.column "animal_2" "id")]⟩]
    "animal_2" "id"

/-- Keys of which the first two hold characters that stand for others in patterns. -/
def lineage : Nat → String
  | 0 => "5%"
  | 1 => "_"
  | _ => "7"

/-- The rows from one key to the next. -/
def lineageRow : Nat → Row Datum
  | 0 => ancestry.anchor.project Datum.session fun _ _ => some (.text (lineage 0))
  | i + 1 => ancestryStep.project Datum.session
      (((Environment.unbound Datum).bind "recursion_1" (lineageRow i)).bind "animal_2"
        fun _ => some (.text (lineage (i + 1))))

theorem bounded_derivation_ancestry :
    ∃ table later combinator, ancestry.cte Query.farm .fresh = .ok (table, later) ∧
      table.content = .recursive ancestry.anchor ancestryStep combinator ∧
      Derivation Datum.session table.name ancestry.anchor ancestryStep lineageRow 2 ∧
      2 ≤ ancestry.depth ∧
      (∀ i ≤ 2, lineageRow i depthColumn = some (.number i) ∧
        lineageRow i pathColumn = some (.text (pathOf ((List.range (i + 1)).map lineage)))) ∧
      ((List.range 3).map lineage).Nodup := by
  have hmade : (ancestry.cte Query.farm .fresh).map Prod.fst =
      .ok ⟨"recursion_1", .recursive ancestry.anchor ancestryStep .union, true⟩ := by cbv
  obtain ⟨⟨table, later⟩, htable, rfl⟩ := Outcome.map_eq_ok_iff.1 hmade
  have hrows :
      Derivation Datum.session "recursion_1" ancestry.anchor ancestryStep lineageRow 2 := by
    refine ⟨⟨fun _ _ => some (.text (lineage 0)), rfl, rfl⟩, fun i hi => ?_⟩
    refine ⟨((Environment.unbound Datum).bind "recursion_1" (lineageRow i)).bind "animal_2"
      fun _ => some (.text (lineage (i + 1))), ?_, ?_, rfl⟩
    · rfl
    · obtain rfl | rfl : i = 0 ∨ i = 1 := by omega
      · cbv
      · cbv
  have hkeys : ∀ i ≤ 2, lineageRow i reachedColumn = some (.text (lineage i)) := by
    intro i hi
    cases i <;> rfl
  exact ⟨_, later, .union, htable, rfl, hrows,
    bounded_derivation Datum.usual_session htable rfl hrows hkeys⟩

end Recursion

end TraversalSql
