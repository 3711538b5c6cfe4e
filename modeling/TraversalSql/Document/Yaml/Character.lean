/-!
The characters of YAML texts: which may occur, which are blanks, which end a line, and the places at
which they stand.
-/

namespace TraversalSql.Document.Yaml

/-- The code point ranges of the characters that may occur in a text, both ends included. -/
def allowedRanges : List (Nat × Nat) :=
  [(0x09, 0x0A), (0x0D, 0x0D), (0x20, 0x7E), (0x85, 0x85), (0xA0, 0xD7FF), (0xE000, 0xFFFD),
    (0x10000, 0x10FFFF)]

/-- Whether a character may occur in a text, be it in a comment. -/
def isAllowed (c : Char) : Bool :=
  allowedRanges.any fun range => range.1 ≤ c.toNat && c.toNat ≤ range.2

/-- The mark that may stand before the other characters of a line, where it takes a column. -/
def byteOrderMark : Char := '\uFEFF'

/-- The control character that moves to the next line. -/
def nextLine : Char := '\u0085'

/-- The characters that separate lines and paragraphs, which are kept as they are. -/
def isSeparator (c : Char) : Bool := c == '\u2028' || c == '\u2029'

/-- The ends of lines, once they are written alike. -/
def isBreak (c : Char) : Bool := c == '\n' || isSeparator c

/-- The blanks within a line. -/
def isGapBlank (c : Char) : Bool := c == ' ' || c == '\t'

/-- Whether the text goes on with a blank or a line end, or stops. -/
def blankNext : List Char → Bool
  | [] => true
  | c :: _ => isGapBlank c || isBreak c

/-- A text in which a carriage return, a line feed, both of them in this order and a next line are
all written as a line feed. -/
def unifyBreaks : List Char → List Char
  | [] => []
  | '\r' :: '\n' :: rest => '\n' :: unifyBreaks rest
  | c :: rest => (if c == '\r' || c == nextLine then '\n' else c) :: unifyBreaks rest

/-- A place in a text: its line, its column, and its distance from the start of the line in bytes of
the UTF-8 encoding. -/
structure Mark where
  line : Nat
  column : Nat
  bytes : Nat

namespace Mark

def start : Mark := ⟨0, 0, 0⟩

/-- The place after a character. -/
def next (mark : Mark) (c : Char) : Mark :=
  if isBreak c then ⟨mark.line + 1, 0, 0⟩
  else ⟨mark.line, mark.column + 1, mark.bytes + c.utf8Size⟩

end Mark

end TraversalSql.Document.Yaml
