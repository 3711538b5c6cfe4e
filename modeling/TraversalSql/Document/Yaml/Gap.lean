import TraversalSql.Document.Yaml.Character

/-!
The gaps within scalars.  Blanks between two characters of a line are kept.  Where a scalar goes on
in another line the blanks around the line ends are dropped and the line ends are folded: a single
one becomes a space, and of several the first is dropped.
-/

namespace TraversalSql.Document.Yaml

/-- What has been read since the last character of a scalar that is not a blank. -/
inductive Gap where
  /-- Blanks of one line, in reverse. -/
  | blanks (read : List Char)
  /-- Line ends: the first, which counts for nothing if it is escaped, and the others in reverse. -/
  | breaks (first : Option Char) (others : List Char)

namespace Gap

def none : Gap := .blanks []

/-- The gap after a line end that has been escaped. -/
def escaped : Gap := .breaks Option.none []

def isNone : Gap → Bool
  | .blanks [] => true
  | _ => false

/-- Whether the scalar goes on in another line. -/
def isBroken : Gap → Bool
  | .blanks _ => false
  | .breaks _ _ => true

/-- Read a blank or a line end. -/
def push (gap : Gap) (c : Char) : Gap :=
  match gap with
  | .blanks read => if isBreak c then .breaks (some c) [] else .blanks (c :: read)
  | .breaks first others => if isBreak c then .breaks first (c :: others) else gap

/-- The characters that a gap puts into its scalar, in reverse. -/
def folded : Gap → List Char
  | .blanks read => read
  | .breaks Option.none others => others
  | .breaks (some first) others =>
      if isSeparator first then others ++ [first]
      else if others.isEmpty then [' ']
      else others

end Gap

end TraversalSql.Document.Yaml
