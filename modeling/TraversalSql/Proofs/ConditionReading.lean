import TraversalSql.Proofs.Semantics
import TraversalSql.Sql.Printer

/-!
How the text of a condition is read.  The text is cut into the texts of atoms, connectives and
parentheses; `AND` binds tighter than `OR`, and parentheses group.  A text has one reading at most
once it is known which atoms stand in it, whatever the texts of the atoms are.
-/

namespace TraversalSql.Sql

/-- The connectives of conditions. -/
inductive Connective where
  | and
  | or
deriving DecidableEq, Repr

/-- A token of the text of a condition.  An atom is one token, whatever its text is. -/
inductive ConditionToken where
  | atom (e : Expr)
  | connective (connective : Connective)
  | opening
  | closing
deriving Repr

/-- What a part of the text of a condition can be: a single operand, or operands with a connective
between any two of them. -/
inductive ReadingLevel where
  | operand
  | chain (connective : Connective)
deriving DecidableEq, Repr

namespace Connective

def operator : Connective → Operator
  | .and => .and
  | .or => .or

def ofOperator? : Operator → Option Connective
  | .and => some .and
  | .or => some .or
  | _ => none

/-- The spelling of a connective, with a blank on each side. -/
def text : Connective → String
  | .and => " AND "
  | .or => " OR "

/-- What a connective stands between: `AND` binds tighter than `OR`. -/
def tighter : Connective → ReadingLevel
  | .and => .operand
  | .or => .chain .and

end Connective

namespace ConditionToken

def print (traits : Traits) : ConditionToken → String
  | .atom e => e.print traits
  | .connective c => c.text
  | .opening => "("
  | .closing => ")"

def written (traits : Traits) : List ConditionToken → String
  | [] => ""
  | token :: tokens => token.print traits ++ written traits tokens

/-- The atoms among tokens, in order. -/
def atoms (tokens : List ConditionToken) : List Expr :=
  tokens.filterMap fun
    | .atom e => some e
    | _ => none

theorem written_append (traits : Traits) (tokens others : List ConditionToken) :
    written traits (tokens ++ others) = written traits tokens ++ written traits others := by
  induction tokens with
  | nil => simp [written]
  | cons token tokens ih => rw [List.cons_append, written, ih, written, String.append_assoc]

theorem atoms_append (tokens others : List ConditionToken) :
    atoms (tokens ++ others) = atoms tokens ++ atoms others :=
  List.filterMap_append

end ConditionToken

open ConditionToken

/-- What tokens are read as at a level. -/
inductive Reads : ReadingLevel → List ConditionToken → Expr → Prop
  | atom (e : Expr) : Reads .operand [.atom e] e
  | enclosed {tokens : List ConditionToken} {e : Expr} (h : Reads (.chain .or) tokens e) :
      Reads .operand (.opening :: (tokens ++ [.closing])) e
  | single (c : Connective) {tokens : List ConditionToken} {e : Expr}
      (h : Reads c.tighter tokens e) : Reads (.chain c) tokens e
  | chain (c : Connective) {first rest : List ConditionToken} {e f : Expr}
      (hfirst : Reads c.tighter first e) (hrest : Reads (.chain c) rest f) :
      Reads (.chain c) (first ++ .connective c :: rest) (.apply c.operator [e, f])

/-- A text is read as an expression, if the atoms in it are known. -/
def ReadsAs (traits : Traits) (known : List Expr) (text : String) (e : Expr) : Prop :=
  ∃ tokens, written traits tokens = text ∧ atoms tokens = known ∧ Reads (.chain .or) tokens e

namespace ReadingLevel

/-- Nothing can be read at a level beyond this place. -/
def Stops : ReadingLevel → List ConditionToken → Prop
  | .operand, _ => True
  | .chain .and, rest => rest.head? ≠ some (.connective .and)
  | .chain .or, rest => ∀ c, rest.head? ≠ some (.connective c)

theorem stops_nil (level : ReadingLevel) : level.Stops [] := by
  rcases level with _ | _ | _ <;> simp [Stops]

theorem stops_closing (level : ReadingLevel) (rest : List ConditionToken) :
    level.Stops (.closing :: rest) := by
  rcases level with _ | _ | _ <;> simp [Stops]

/-- What a connective stands between does not go on beyond it. -/
theorem stops_connective (c : Connective) (rest : List ConditionToken) :
    c.tighter.Stops (.connective c :: rest) := by
  cases c <;> simp [Connective.tighter, Stops]

theorem Stops.tighter {c : Connective} {rest : List ConditionToken}
    (h : (ReadingLevel.chain c).Stops rest) : c.tighter.Stops rest := by
  cases c with
  | and => trivial
  | or => exact h .and

theorem Stops.ne_connective {c : Connective} {rest : List ConditionToken}
    (h : (ReadingLevel.chain c).Stops (.connective c :: rest)) : False := by
  cases c with
  | and => exact h rfl
  | or => exact h .or rfl

end ReadingLevel

open ReadingLevel

/-- Tokens are read in one way: what is read at a level, up to where nothing more can be read, is
determined. -/
theorem Reads.unique {level : ReadingLevel} {tokens others rest remaining : List ConditionToken}
    {e f : Expr} (h : Reads level tokens e) (hother : Reads level others f)
    (hsame : tokens ++ rest = others ++ remaining) (hrest : level.Stops rest)
    (hremaining : level.Stops remaining) : tokens = others ∧ e = f := by
  induction h generalizing others rest remaining f with
  | atom e =>
      cases hother with
      | atom =>
          obtain ⟨hatom, -⟩ := List.cons.inj hsame
          obtain rfl := ConditionToken.atom.inj hatom
          exact ⟨rfl, rfl⟩
      | enclosed => exact absurd (List.cons.inj hsame).1 (by simp)
  | enclosed h ih =>
      cases hother with
      | atom => exact absurd (List.cons.inj hsame).1 (by simp)
      | enclosed hother =>
          rw [List.cons_append, List.cons_append, List.append_assoc, List.append_assoc] at hsame
          obtain ⟨rfl, rfl⟩ :=
            ih hother (List.cons.inj hsame).2 (stops_closing _ _) (stops_closing _ _)
          exact ⟨rfl, rfl⟩
  | single c h ih =>
      cases hother with
      | single _ hother => exact ih hother hsame hrest.tighter hremaining.tighter
      | chain _ hfirst hlater =>
          -- The other reading finds a connective where this one stops.
          rw [List.append_assoc, List.cons_append] at hsame
          obtain ⟨rfl, -⟩ := ih hfirst hsame hrest.tighter (stops_connective c _)
          rw [List.append_cancel_left hsame] at hrest
          exact hrest.ne_connective.elim
  | chain c hfirst hlater ihFirst ihLater =>
      rw [List.append_assoc, List.cons_append] at hsame
      cases hother with
      | single _ hother =>
          obtain ⟨rfl, -⟩ := ihFirst hother hsame (stops_connective c _) hremaining.tighter
          rw [← List.append_cancel_left hsame] at hremaining
          exact hremaining.ne_connective.elim
      | chain _ hotherFirst hotherLater =>
          rw [List.append_assoc, List.cons_append] at hsame
          obtain ⟨rfl, rfl⟩ :=
            ihFirst hotherFirst hsame (stops_connective c _) (stops_connective c _)
          obtain ⟨-, hafter⟩ := List.cons.inj (List.append_cancel_left hsame)
          obtain ⟨rfl, rfl⟩ := ihLater hotherLater hafter hrest hremaining
          exact ⟨rfl, rfl⟩

/-- Operands and what follows them take turns.  An operand may be due, before which parentheses
open, or it is complete, after which they close. -/
def Alternate : (due : Bool) → List ConditionToken → Prop
  | true, .opening :: tokens => Alternate true tokens
  | true, .atom _ :: tokens => Alternate false tokens
  | false, .closing :: tokens => Alternate false tokens
  | false, .connective _ :: tokens => Alternate true tokens
  | false, [] => True
  | _, _ => False

/-- What is read is an operand in this sense. -/
theorem Reads.alternate {level : ReadingLevel} {tokens rest : List ConditionToken} {e : Expr}
    (h : Reads level tokens e) (hrest : Alternate false rest) :
    Alternate true (tokens ++ rest) := by
  induction h generalizing rest with
  | atom => exact hrest
  | enclosed _ ih =>
      rw [List.cons_append, List.append_assoc]
      refine ih ?_
      exact hrest
  | single _ _ ih => exact ih hrest
  | chain c _ _ ihFirst ihLater =>
      rw [List.append_assoc]
      refine ihFirst ?_
      exact ihLater hrest

/-- The number of parentheses that open at the start of a text. -/
def openings (cs : List Char) : Nat := (cs.takeWhile (· = '(')).length

theorem openings_append {cs rest : List Char} (h : rest.head? ≠ some '(') :
    openings (cs ++ rest) = openings cs := by
  induction cs with
  | nil =>
      cases rest with
      | nil => rfl
      | cons c rest => simp [openings, show c ≠ '(' by simpa using h]
  | cons c cs ih =>
      by_cases hc : c = '('
      · simpa [openings, hc] using ih
      · simp [openings, hc]

section Cut

variable (traits : Traits) {tokens others : List ConditionToken}

theorem toList_written_cons (token : ConditionToken) (tokens : List ConditionToken) :
    (written traits (token :: tokens)).toList =
      (token.print traits).toList ++ (written traits tokens).toList := by
  rw [written, String.toList_append]

/-- No parenthesis opens right after an operand. -/
theorem Alternate.head?_ne (h : Alternate false tokens) :
    (written traits tokens).toList.head? ≠ some '(' := by
  match tokens with
  | [] => simp [written]
  | .closing :: tokens => simp [toList_written_cons, ConditionToken.print]
  | .connective .and :: tokens | .connective .or :: tokens =>
      simp [toList_written_cons, ConditionToken.print, Connective.text]
  | .atom _ :: _ | .opening :: _ => exact absurd h (by simp [Alternate])

/-- Before an atom there are at least the parentheses with which its own text starts. -/
theorem Alternate.openings_le (h : Alternate true tokens) {e : Expr} {later : List Expr}
    (hatoms : atoms tokens = e :: later) :
    openings (e.print traits).toList ≤ openings (written traits tokens).toList := by
  induction tokens with
  | nil => exact absurd h (by simp [Alternate])
  | cons token tokens ih =>
      cases token with
      | atom f =>
          obtain ⟨rfl, -⟩ := List.cons.inj hatoms
          rw [toList_written_cons, openings_append (Alternate.head?_ne traits h)]
          exact Nat.le_refl _
      | opening =>
          have hle := ih h hatoms
          rw [toList_written_cons]
          simpa [ConditionToken.print, openings] using Nat.le_succ_of_le hle
      | closing | connective => exact absurd h (by simp [Alternate])

/-- No text starts both with an atom and with a parenthesis before the same atom. -/
theorem written_atom_ne_opening {e : Expr} (h : Alternate false tokens)
    (hother : Alternate true others) {later : List Expr} (hatoms : atoms others = e :: later) :
    written traits (.atom e :: tokens) ≠ written traits (.opening :: others) := by
  intro hsame
  have hle := Alternate.openings_le traits hother hatoms
  have hcount := congrArg (fun text => openings text.toList) hsame
  simp only [toList_written_cons, openings_append (Alternate.head?_ne traits h)] at hcount
  simp only [ConditionToken.print, openings] at hcount hle
  simp at hcount
  omega

theorem written_cons_inj {token : ConditionToken}
    (h : written traits (token :: tokens) = written traits (token :: others)) :
    written traits tokens = written traits others := by
  have htexts := congrArg String.toList h
  rw [toList_written_cons, toList_written_cons] at htexts
  exact String.toList_injective (List.append_cancel_left htexts)

/-- What can follow an operand is told apart by its first two characters. -/
theorem written_ne_of_complete (h : Alternate false tokens) (hother : Alternate false others)
    (hne : tokens.head? ≠ others.head?) : written traits tokens ≠ written traits others := by
  intro hsame
  have htexts := congrArg String.toList hsame
  match tokens, others with
  | [], [] => exact hne rfl
  | .closing :: _, .closing :: _ => exact hne rfl
  | .connective .and :: _, .connective .and :: _ => exact hne rfl
  | .connective .or :: _, .connective .or :: _ => exact hne rfl
  | [], .closing :: _ | .closing :: _, [] =>
      simp [written, ConditionToken.print] at htexts
  | [], .connective c :: _ | .connective c :: _, [] =>
      cases c <;> simp [written, ConditionToken.print, Connective.text] at htexts
  | .closing :: _, .connective c :: _ | .connective c :: _, .closing :: _ =>
      cases c <;> simp [written, ConditionToken.print, Connective.text] at htexts
  | .connective .and :: _, .connective .or :: _ | .connective .or :: _, .connective .and :: _ =>
      simp [written, ConditionToken.print, Connective.text] at htexts
  | .atom _ :: _, _ | .opening :: _, _ => exact h
  | _, .atom _ :: _ | _, .opening :: _ => exact hother

/-- A text is cut in one way into tokens with given atoms. -/
theorem Alternate.unique {due : Bool} (h : Alternate due tokens) (hother : Alternate due others)
    (hatoms : atoms tokens = atoms others)
    (hsame : written traits tokens = written traits others) : tokens = others := by
  induction tokens generalizing due others with
  | nil =>
      cases due with
      | true => exact h.elim
      | false =>
          have hhead := by_contra fun hne => written_ne_of_complete traits h hother hne hsame
          exact (List.head?_eq_none_iff.1 hhead.symm).symm
  | cons token tokens ih =>
      cases due with
      | false =>
          have hhead := by_contra fun hne => written_ne_of_complete traits h hother hne hsame
          obtain ⟨others, rfl⟩ := List.head?_eq_some_iff.1 hhead.symm
          have hrest := written_cons_inj traits hsame
          cases token with
          | closing => exact congrArg _ (ih h hother hatoms hrest : tokens = others)
          | connective => exact congrArg _ (ih h hother hatoms hrest : tokens = others)
          | atom | opening => exact h.elim
      | true =>
          match token, others with
          | .atom e, .atom f :: others =>
              obtain ⟨rfl, hlater⟩ := List.cons.inj hatoms
              have hrest : written traits tokens = written traits others :=
                written_cons_inj traits hsame
              exact congrArg _ (ih h hother hlater hrest : tokens = others)
          | .opening, .opening :: others =>
              have hrest : written traits tokens = written traits others :=
                written_cons_inj traits hsame
              exact congrArg _ (ih h hother hatoms hrest : tokens = others)
          | .atom e, .opening :: others =>
              exact absurd hsame (written_atom_ne_opening traits h hother hatoms.symm)
          | .opening, .atom e :: others =>
              exact absurd hsame.symm (written_atom_ne_opening traits hother h hatoms)
          | .closing, _ | .connective _, _ => exact h.elim
          | _, [] | _, .closing :: _ | _, .connective _ :: _ => exact hother.elim

end Cut

/-- A text in which the atoms are known has one reading at most. -/
theorem ReadsAs.unique {traits : Traits} {known : List Expr} {text : String} {e f : Expr}
    (h : ReadsAs traits known text e) (hother : ReadsAs traits known text f) : e = f := by
  obtain ⟨tokens, htext, hatoms, hreads⟩ := h
  obtain ⟨others, hsame, hsameAtoms, hotherReads⟩ := hother
  have halternate : ∀ {tokens e}, Reads (.chain .or) tokens e → Alternate true tokens := by
    intro tokens e hreads
    have hcomplete : Alternate true (tokens ++ []) := hreads.alternate trivial
    rwa [List.append_nil] at hcomplete
  obtain rfl := Alternate.unique traits (halternate hreads) (halternate hotherReads)
    (hatoms.trans hsameAtoms.symm) (htext.trans hsame.symm)
  exact (hreads.unique hotherReads rfl (stops_nil _) (stops_nil _)).2

end TraversalSql.Sql
