import TraversalSql.Sql.Printer

/-!
Where the placeholders of a statement stand in its text.  The text is cut into pieces, of which some
are placeholders and the others are fixed.  In any dialect the placeholders are the parameters of
the statement, in the order of its selects, of the expressions of a select, and of the operands of
an expression.
-/

namespace TraversalSql.Sql

/-- A piece of the text of a statement. -/
inductive Piece where
  /-- Text that is fixed. -/
  | fixed (text : String)
  /-- The placeholder of a parameter. -/
  | placeholder (name : String)
deriving DecidableEq, Repr

namespace Piece

def print : Piece → String
  | .fixed text => text
  | .placeholder name => ":" ++ name

def written : List Piece → String
  | [] => ""
  | piece :: pieces => piece.print ++ written pieces

/-- The placeholders among pieces, in order and with repetitions. -/
def placeholders (pieces : List Piece) : List String :=
  pieces.filterMap fun
    | .fixed _ => none
    | .placeholder name => some name

/-- Parts one after the other, with fixed text between any two of them. -/
def separated (separator : String) : List (List Piece) → List Piece
  | [] => []
  | [part] => part
  | part :: parts => part ++ .fixed separator :: separated separator parts

@[simp]
theorem written_nil : written [] = "" := rfl

@[simp]
theorem written_fixed (text : String) (pieces : List Piece) :
    written (.fixed text :: pieces) = text ++ written pieces := rfl

@[simp]
theorem written_placeholder (name : String) (pieces : List Piece) :
    written (.placeholder name :: pieces) = ":" ++ name ++ written pieces := rfl

@[simp]
theorem written_append (pieces others : List Piece) :
    written (pieces ++ others) = written pieces ++ written others := by
  induction pieces with
  | nil => simp
  | cons piece pieces ih => rw [List.cons_append, written, ih, written, String.append_assoc]

@[simp]
theorem written_separated (separator : String) (parts : List (List Piece)) :
    written (separated separator parts) = separator.intercalate (parts.map written) := by
  fun_induction separated separator parts with
  | case1 => rfl
  | case2 part => simp
  | case3 part parts hne ih =>
      obtain ⟨next, rest, rfl⟩ := List.exists_cons_of_ne_nil hne
      simp [ih, String.append_assoc]

@[simp]
theorem placeholders_nil : placeholders [] = [] := rfl

@[simp]
theorem placeholders_fixed (text : String) (pieces : List Piece) :
    placeholders (.fixed text :: pieces) = placeholders pieces := rfl

@[simp]
theorem placeholders_placeholder (name : String) (pieces : List Piece) :
    placeholders (.placeholder name :: pieces) = name :: placeholders pieces := rfl

@[simp]
theorem placeholders_append (pieces others : List Piece) :
    placeholders (pieces ++ others) = placeholders pieces ++ placeholders others :=
  List.filterMap_append

@[simp]
theorem placeholders_separated (separator : String) (parts : List (List Piece)) :
    placeholders (separated separator parts) = parts.flatMap placeholders := by
  fun_induction separated separator parts with
  | case1 => rfl
  | case2 part => simp
  | case3 part parts _ ih => simp [ih]

end Piece

open Piece

def Traits.concatPieces (traits : Traits) (parts : List (List Piece)) : List Piece :=
  match traits.concatenation with
  | .operator symbol => separated (" " ++ symbol ++ " ") parts
  | .function => .fixed "CONCAT(" :: separated ", " parts ++ [.fixed ")"]

namespace Expr

def enclosedPieces (parent : Operator) (operand : Expr) (pieces : List Piece) : List Piece :=
  if operand.needsParentheses parent then .fixed "(" :: pieces ++ [.fixed ")"] else pieces

def appliedPieces (operator : Operator) (operands : List Expr) (parts : List (List Piece)) :
    List Piece :=
  let separator := " " ++ operator.symbol ++ " "
  match operator, parts with
  | .isNull, [operand] => operand ++ [.fixed (" " ++ operator.symbol)]
  | .isNotNull, [operand] => operand ++ [.fixed (" " ++ operator.symbol)]
  | .inList, [left, right] => left ++ .fixed (separator ++ "(") :: right ++ [.fixed ")"]
  | .notInList, [left, right] => left ++ .fixed (separator ++ "(") :: right ++ [.fixed ")"]
  | .between, [value, lower, upper] =>
      value ++ .fixed " BETWEEN " :: lower ++ .fixed " AND " :: upper
  | .and, parts => separated separator (List.zipWith (enclosedPieces .and) operands parts)
  | .or, parts => separated separator (List.zipWith (enclosedPieces .or) operands parts)
  | _, [operand] => .fixed (operator.symbol ++ " ") :: operand
  | _, parts => separated separator parts

mutual

def pieces (traits : Traits) : Expr → List Piece
  | .literal value => [.fixed value.print]
  | .raw text => [.fixed text]
  | .parameter name => [.placeholder name]
  | .aggregate function arguments =>
      .fixed (function ++ "(") :: separated ", " (piecesOfAll traits arguments) ++ [.fixed ")"]
  | .column table name => [.fixed (traits.quote table ++ "." ++ traits.quote name)]
  | .apply operator operands => appliedPieces operator operands (piecesOfAll traits operands)
  | .castToText inner =>
      .fixed "CAST(" :: inner.pieces traits ++ [.fixed (" AS " ++ traits.textType ++ ")")]
  | .castToPath inner =>
      match traits.pathType with
      | some pathType =>
          .fixed "CAST(" :: inner.pieces traits ++ [.fixed (" AS " ++ pathType ++ ")")]
      | none => inner.pieces traits
  | .concat parts => traits.concatPieces (piecesOfAll traits parts)

def piecesOfAll (traits : Traits) : List Expr → List (List Piece)
  | [] => []
  | e :: rest => e.pieces traits :: piecesOfAll traits rest

end

theorem length_piecesOfAll (traits : Traits) (es : List Expr) :
    (piecesOfAll traits es).length = es.length := by
  induction es with
  | nil => rfl
  | cons e es ih => rw [piecesOfAll, List.length_cons, ih, List.length_cons]

theorem written_enclosedPieces (parent : Operator) (operand : Expr) (part : List Piece) :
    written (enclosedPieces parent operand part) = enclosed parent operand (written part) := by
  unfold enclosedPieces enclosed
  split <;> simp [String.append_assoc]

theorem written_appliedPieces (operator : Operator) (operands : List Expr)
    (parts : List (List Piece)) :
    written (appliedPieces operator operands parts) =
      printApplied operator operands (parts.map written) := by
  have hconnective : ∀ parent separator,
      written (separated separator (List.zipWith (enclosedPieces parent) operands parts)) =
        separator.intercalate (List.zipWith (enclosed parent) operands (parts.map written)) := by
    intro parent separator
    simp [List.map_zipWith, List.zipWith_map_right, written_enclosedPieces]
  cases operator with
  | and => exact hconnective .and _
  | or => exact hconnective .or _
  | _ =>
      match parts with
      | [] | [_] | [_, _] | [_, _, _] | _ :: _ :: _ :: _ :: _ =>
          simp [appliedPieces, printApplied, String.append_assoc]

theorem placeholders_enclosedPieces (parent : Operator) (operand : Expr) (part : List Piece) :
    placeholders (enclosedPieces parent operand part) = placeholders part := by
  unfold enclosedPieces
  split <;> simp

theorem flatMap_placeholders_zipWith (parent : Operator) {operands : List Expr}
    {parts : List (List Piece)} (h : parts.length = operands.length) :
    (List.zipWith (enclosedPieces parent) operands parts).flatMap placeholders =
      parts.flatMap placeholders := by
  induction parts generalizing operands with
  | nil => rw [List.zipWith_nil_right]
  | cons part parts ih =>
      obtain ⟨operand, operands, rfl⟩ := List.exists_cons_of_length_eq_add_one h.symm
      rw [List.zipWith_cons_cons, List.flatMap_cons, List.flatMap_cons,
        placeholders_enclosedPieces, ih (Nat.succ.inj h)]

theorem placeholders_appliedPieces (operator : Operator) {operands : List Expr}
    {parts : List (List Piece)} (h : parts.length = operands.length) :
    placeholders (appliedPieces operator operands parts) = parts.flatMap placeholders := by
  have hconnective : ∀ parent separator,
      placeholders (separated separator (List.zipWith (enclosedPieces parent) operands parts)) =
        parts.flatMap placeholders := by
    intro parent separator
    rw [placeholders_separated, flatMap_placeholders_zipWith parent h]
  cases operator with
  | and => exact hconnective .and _
  | or => exact hconnective .or _
  | _ =>
      match parts with
      | [] | [_] | [_, _] | [_, _, _] | _ :: _ :: _ :: _ :: _ => simp [appliedPieces]

mutual

/-- The pieces of an expression make up its text. -/
theorem written_pieces (traits : Traits) (e : Expr) :
    written (e.pieces traits) = e.print traits := by
  match e with
  | .literal _ | .raw _ | .parameter _ | .column _ _ => simp [pieces, print]
  | .aggregate function arguments =>
      simp [pieces, print, map_written_piecesOfAll traits arguments, String.append_assoc]
  | .apply operator operands =>
      rw [pieces, print, written_appliedPieces, map_written_piecesOfAll traits operands]
  | .castToText inner => simp [pieces, print, written_pieces traits inner, String.append_assoc]
  | .castToPath inner =>
      cases hpath : traits.pathType <;>
        simp [pieces, print, hpath, written_pieces traits inner, String.append_assoc]
  | .concat parts =>
      cases htexts : traits.concatenation <;>
        simp [pieces, print, Traits.concatPieces, Traits.concat, htexts,
          map_written_piecesOfAll traits parts, String.append_assoc]

theorem map_written_piecesOfAll (traits : Traits) (es : List Expr) :
    (piecesOfAll traits es).map written = printAll traits es := by
  match es with
  | [] => rfl
  | e :: es =>
      rw [piecesOfAll, List.map_cons, written_pieces traits e, map_written_piecesOfAll traits es,
        printAll]

end

mutual

/-- The placeholders of an expression are its parameters. -/
theorem placeholders_pieces (traits : Traits) (e : Expr) :
    placeholders (e.pieces traits) = e.parameters := by
  match e with
  | .literal _ | .raw _ | .parameter _ | .column _ _ => simp [pieces, parameters]
  | .aggregate function arguments =>
      simp [pieces, parameters, flatMap_placeholders_piecesOfAll traits arguments]
  | .apply operator operands =>
      rw [pieces, parameters, placeholders_appliedPieces _ (length_piecesOfAll traits operands),
        flatMap_placeholders_piecesOfAll traits operands]
  | .castToText inner => simp [pieces, parameters, placeholders_pieces traits inner]
  | .castToPath inner =>
      cases hpath : traits.pathType <;>
        simp [pieces, parameters, hpath, placeholders_pieces traits inner]
  | .concat parts =>
      cases htexts : traits.concatenation <;>
        simp [pieces, parameters, Traits.concatPieces, htexts,
          flatMap_placeholders_piecesOfAll traits parts]

theorem flatMap_placeholders_piecesOfAll (traits : Traits) (es : List Expr) :
    (piecesOfAll traits es).flatMap placeholders = parametersOfAll es := by
  match es with
  | [] => rfl
  | e :: es =>
      rw [piecesOfAll, List.flatMap_cons, placeholders_pieces traits e,
        flatMap_placeholders_piecesOfAll traits es, parametersOfAll]

end

/-- Merging conditions into one keeps their parameters in order. -/
theorem parameters_joined (operator : Operator) (conditions : List Expr) :
    (joined operator conditions).toList.flatMap parameters = conditions.flatMap parameters := by
  have hunder : ∀ e : Expr, (e.operandsUnder operator).flatMap parameters = e.parameters := by
    intro e
    unfold operandsUnder
    split
    · split
      · rw [parameters, parametersOfAll_eq_flatMap]
      · exact List.flatMap_singleton ..
    · exact List.flatMap_singleton ..
  have hflat : (conditions.flatMap (operandsUnder operator)).flatMap parameters =
      conditions.flatMap parameters := by
    simp only [List.flatMap_assoc, hunder]
  rw [← hflat, joined]
  split
  · next hnil => rw [hnil]; rfl
  · next condition hone => rw [hone]; rfl
  · next operands _ _ =>
    rw [Option.toList_some, List.flatMap_singleton, parameters, parametersOfAll_eq_flatMap]

end Expr

def Join.pieces (traits : Traits) (join : Join) : List Piece :=
  match Expr.conjunction join.conditions with
  | some condition =>
      .fixed (join.kind.keywords ++ " " ++ join.table.print traits ++ " ON ") ::
        condition.pieces traits
  | none => [.fixed ("CROSS JOIN " ++ join.table.print traits)]

def SelectItem.pieces (traits : Traits) (item : SelectItem) : List Piece :=
  match item.aliasName with
  | some aliasName =>
      item.expression.pieces traits ++ [.fixed (" AS " ++ traits.quote aliasName)]
  | none => item.expression.pieces traits

def Select.clausePieces (traits : Traits) (query : Select) : List (List Piece) :=
  let keyword := if query.distinct then "SELECT DISTINCT" else "SELECT"
  let items := separated ", " (query.items.map (SelectItem.pieces traits))
  let filters := match Expr.conjunction query.filters with
    | some condition => [.fixed "WHERE " :: condition.pieces traits]
    | none => []
  let grouping :=
    if query.groupBy.isEmpty then []
    else [.fixed "GROUP BY " :: separated ", " (query.groupBy.map (Expr.pieces traits))]
  [.fixed (keyword ++ " ") :: items, [.fixed ("FROM " ++ query.source.base.print traits)]]
    ++ query.source.joins.map (Join.pieces traits) ++ filters ++ grouping

def Select.pieces (traits : Traits) (query : Select) : List Piece :=
  separated "\n" (query.clausePieces traits)

def CteContent.pieces (traits : Traits) : CteContent → List Piece
  | .select query => query.pieces traits
  | .recursive anchor step combinator =>
      anchor.pieces traits ++ .fixed ("\n" ++ combinator.keywords ++ "\n") :: step.pieces traits

def Cte.pieces (traits : Traits) (cte : Cte) : List Piece :=
  .fixed (traits.quote cte.name ++ " AS (\n") :: cte.content.pieces traits ++ [.fixed "\n)"]

def Statement.piecesWith (traits : Traits) (statement : Statement) : List Piece :=
  if statement.ctes.isEmpty then []
  else
    let keyword :=
      if statement.hasRecursion && traits.recursiveKeyword then "WITH RECURSIVE " else "WITH "
    .fixed keyword :: separated ",\n" (statement.ctes.map (Cte.pieces traits)) ++ [.fixed "\n"]

/-- The pieces of a statement in a dialect. -/
def Statement.pieces (statement : Statement) (dialect : Dialect) : List Piece :=
  statement.piecesWith dialect.traits ++ statement.body.pieces dialect.traits

variable (traits : Traits)

theorem Join.written_pieces (join : Join) : written (join.pieces traits) = join.print traits := by
  cases hcondition : Expr.conjunction join.conditions <;>
    simp [pieces, print, hcondition, Expr.written_pieces, String.append_assoc]

theorem SelectItem.written_pieces (item : SelectItem) :
    written (item.pieces traits) = item.print traits := by
  cases halias : item.aliasName <;>
    simp [pieces, print, halias, Expr.written_pieces, String.append_assoc]

theorem Select.written_pieces (query : Select) :
    written (query.pieces traits) = query.print traits := by
  have hitems : (query.items.map (SelectItem.pieces traits)).map written =
      query.items.map (SelectItem.print traits) := by
    simp [SelectItem.written_pieces, Function.comp_def]
  have hjoins : (query.source.joins.map (Join.pieces traits)).map written =
      query.source.joins.map (Join.print traits) := by
    simp [Join.written_pieces, Function.comp_def]
  have hgroups : (query.groupBy.map (Expr.pieces traits)).map written =
      query.groupBy.map (Expr.print traits) := by
    simp [Expr.written_pieces, Function.comp_def]
  have hclauses : (query.clausePieces traits).map written = query.clauses traits := by
    unfold clausePieces clauses
    cases Expr.conjunction query.filters <;> by_cases hempty : query.groupBy.isEmpty <;>
      simp [hempty, hitems, hjoins, hgroups, Expr.written_pieces, String.append_assoc]
  rw [pieces, written_separated, hclauses, print]

theorem Cte.written_pieces (cte : Cte) : written (cte.pieces traits) = cte.print traits := by
  have hcontent : written (cte.content.pieces traits) = cte.content.print traits := by
    cases cte.content with
    | select query => exact query.written_pieces traits
    | recursive anchor step combinator =>
        simp [CteContent.pieces, CteContent.print, Select.written_pieces, String.append_assoc]
  simp [pieces, print, hcontent, String.append_assoc]

/-- The pieces of a statement make up its text. -/
theorem Statement.written_pieces (statement : Statement) (dialect : Dialect) :
    written (statement.pieces dialect) = statement.print dialect := by
  have hctes : written (statement.piecesWith dialect.traits) =
      statement.printWith dialect.traits := by
    unfold piecesWith printWith
    split
    · rfl
    · simp [Cte.written_pieces, Function.comp_def, String.append_assoc]
  rw [pieces, written_append, hctes, Select.written_pieces, print]

theorem Join.placeholders_pieces (join : Join) :
    placeholders (join.pieces traits) = join.conditions.flatMap Expr.parameters := by
  rw [← Expr.parameters_joined .and, ← Expr.conjunction]
  cases hcondition : Expr.conjunction join.conditions <;>
    simp [pieces, hcondition, Expr.placeholders_pieces]

theorem SelectItem.placeholders_pieces (item : SelectItem) :
    placeholders (item.pieces traits) = item.expression.parameters := by
  cases halias : item.aliasName <;> simp [pieces, halias, Expr.placeholders_pieces]

/-- The placeholders of a select are the parameters of its expressions. -/
theorem Select.placeholders_pieces (query : Select) :
    placeholders (query.pieces traits) = query.expressions.flatMap Expr.parameters := by
  have hitems : (query.items.map (SelectItem.pieces traits)).flatMap placeholders =
      (query.items.map SelectItem.expression).flatMap Expr.parameters := by
    simp [List.flatMap_map, SelectItem.placeholders_pieces]
  have hjoins : (query.source.joins.map (Join.pieces traits)).flatMap placeholders =
      (query.source.joins.flatMap Join.conditions).flatMap Expr.parameters := by
    simp [List.flatMap_map, List.flatMap_assoc, Join.placeholders_pieces]
  have hgroups : (query.groupBy.map (Expr.pieces traits)).flatMap placeholders =
      query.groupBy.flatMap Expr.parameters := by
    simp [List.flatMap_map, Expr.placeholders_pieces]
  have hfilters := Expr.parameters_joined .and query.filters
  rw [← Expr.conjunction] at hfilters
  rw [pieces, placeholders_separated, expressions, List.flatMap_append, List.flatMap_append,
    List.flatMap_append, ← hitems, ← hjoins, ← hgroups, ← hfilters, clausePieces]
  cases Expr.conjunction query.filters <;> by_cases hempty : query.groupBy = [] <;>
    simp [hempty, Expr.placeholders_pieces]

theorem Cte.placeholders_pieces (cte : Cte) :
    placeholders (cte.pieces traits) =
      cte.selects.flatMap fun query => query.expressions.flatMap Expr.parameters := by
  rw [pieces, selects]
  cases cte.content <;> simp [CteContent.pieces, Select.placeholders_pieces]

/-- In any dialect the placeholders of a statement are the parameters of its selects. -/
theorem Statement.placeholders_pieces (statement : Statement) (dialect : Dialect) :
    placeholders (statement.pieces dialect) =
      (statement.ctes.flatMap Cte.selects ++ [statement.body]).flatMap
        fun query => query.expressions.flatMap Expr.parameters := by
  have hctes : placeholders (statement.piecesWith dialect.traits) =
      (statement.ctes.flatMap Cte.selects).flatMap
        fun query => query.expressions.flatMap Expr.parameters := by
    rw [List.flatMap_assoc, piecesWith]
    by_cases hempty : statement.ctes = [] <;>
      simp [hempty, List.flatMap_map, Cte.placeholders_pieces]
  rw [pieces, placeholders_append, hctes, Select.placeholders_pieces, List.flatMap_append,
    List.flatMap_singleton]

end TraversalSql.Sql
