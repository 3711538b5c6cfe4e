import TraversalSql.Document
import TraversalSql.Text.Numeral

/-!
Reading JSON text.  The text is cut into tokens, and the tokens are read by a machine whose stack
holds the lists and objects that are still open, so both passes follow their input.

Three things are well formed and denote no value: a number beyond the range of double precision, a
text with half of a surrogate pair, and what is nested too deeply.  Reading leniently keeps them as
faulty parts; reading strictly refuses the text.
-/

namespace TraversalSql.Document.Json

/-- A token of a JSON text; `scalar` holds a whole value that is neither a text nor a list nor an
object. -/
inductive Token where
  | openList
  | closeList
  | openObject
  | closeObject
  | comma
  | colon
  /-- A text, which has no value where half of a surrogate pair is missing. -/
  | text (value : Option String)
  | scalar (value : Document)

/-- The blanks allowed between tokens. -/
def isSpace (c : Char) : Bool := c == ' ' || c == '\t' || c == '\n' || c == '\r'

/-- The characters of which numbers and the three constants are made. -/
def isWordChar (c : Char) : Bool := c.isAlphanum || c == '+' || c == '-' || c == '.'

/-- Whether the characters are a digit sequence without a needless leading zero. -/
def isWholePart : List Char → Bool
  | [] => false
  | ['0'] => true
  | '0' :: _ => false
  | cs => cs.all Char.isDigit

/-- The characters, if they are digits and there is at least one. -/
def digits? (cs : List Char) : Option (List Char) :=
  if !cs.isEmpty && cs.all Char.isDigit then some cs else none

/-- The value of an exponent without its mark. -/
def exponent? : List Char → Option Int
  | '+' :: cs => (digits? cs).map fun digits => (Text.digitsValue digits : Int)
  | '-' :: cs => (digits? cs).map fun digits => -(Text.digitsValue digits : Int)
  | cs => (digits? cs).map fun digits => (Text.digitsValue digits : Int)

/-- The digits of the fraction and the exponent in the characters after the whole part, where
either may be missing. -/
def fraction? (cs : List Char) : Option (List Char × Int) := do
  let isMark := fun c : Char => c == 'e' || c == 'E'
  let exponent ← match cs.dropWhile fun c => !isMark c with
    | [] => some 0
    | _ :: rest => exponent? rest
  let fraction ← match cs.takeWhile fun c => !isMark c with
    | [] => some []
    | '.' :: rest => digits? rest
    | _ => none
  return (fraction, exponent)

/-- The number of an unsigned numeral; `negative` tells whether a minus sign stood before it. A
negative zero is not an integer. -/
def unsigned? (negative : Bool) (cs : List Char) : Option Document := do
  let whole := cs.takeWhile Char.isDigit
  let rest := cs.dropWhile Char.isDigit
  if !isWholePart whole then none
  else
    let (fraction, exponent) ← fraction? rest
    let value := Text.digitsValue whole
    if !Text.isFinite whole fraction exponent then
      return .faulty
    else if !rest.isEmpty then
      return .decimal (String.ofList cs)
    else if !negative then
      return .integer value
    else
      return if value = 0 then .decimal "-0" else .integer (-(value : Int))

/-- The value of a number or a constant. -/
def word? : List Char → Option Document
  | ['t', 'r', 'u', 'e'] => some (.bool true)
  | ['f', 'a', 'l', 's', 'e'] => some (.bool false)
  | ['n', 'u', 'l', 'l'] => some .null
  | '-' :: cs => unsigned? true cs
  | cs => unsigned? false cs

/-- The character of a one-letter escape. -/
def escape? : Char → Option Char
  | '"' => some '"'
  | '\\' => some '\\'
  | '/' => some '/'
  | 'b' => some (Char.ofNat 8)
  | 'f' => some (Char.ofNat 12)
  | 'n' => some '\n'
  | 'r' => some '\r'
  | 't' => some '\t'
  | _ => none

/-- The number of four hexadecimal digits. -/
def hex4? (a b c d : Char) : Option Nat := do
  let digit := Text.digitValue? 16
  return (← digit a) * 4096 + (← digit b) * 256 + (← digit c) * 16 + (← digit d)

/-- The first half of a pair that encodes one character. -/
def isHighSurrogate (n : Nat) : Bool := 0xD800 ≤ n && n ≤ 0xDBFF

/-- The second half of a pair that encodes one character. -/
def isLowSurrogate (n : Nat) : Bool := 0xDC00 ≤ n && n ≤ 0xDFFF

/-- The text read so far in a string, in reverse. -/
structure Reading where
  read : List Char
  /-- The first half of a surrogate pair, if the last escape was one. -/
  half : Option Nat
  /-- Whether each half of a pair has had its other half. -/
  sound : Bool

namespace Reading

def start : Reading := ⟨[], none, true⟩

/-- Read a character. -/
def push (s : Reading) (c : Char) : Reading := ⟨c :: s.read, none, s.sound && s.half.isNone⟩

/-- Read the code unit of an escape. -/
def pushUnit (s : Reading) (unit : Nat) : Reading :=
  if isHighSurrogate unit then ⟨s.read, some unit, s.sound && s.half.isNone⟩
  else if isLowSurrogate unit then
    match s.half with
    | some high =>
        let code := 0x10000 + (high - 0xD800) * 0x400 + (unit - 0xDC00)
        ⟨Char.ofNat code :: s.read, none, s.sound⟩
    | none => ⟨s.read, none, false⟩
  else s.push (Char.ofNat unit)

/-- The token of a string that has been read to its end. -/
def token (s : Reading) : Token :=
  .text (if s.sound && s.half.isNone then some (String.ofList s.read.reverse) else none)

end Reading

/-- What the reader of tokens is inside of. -/
inductive Mode where
  /-- Between tokens, or in a word whose characters so far are given in reverse. -/
  | word (read : List Char)
  | string (s : Reading)

/-- Put the token of a word, if there is one, before the tokens read so far. -/
def closeWord? (read : List Char) (tokens : List Token) : Option (List Token) :=
  match read with
  | [] => some tokens
  | read => (word? read.reverse).map fun value => .scalar value :: tokens

/-- Put the token of a punctuation character before the tokens read so far; blanks have none. -/
def punctuate? (c : Char) (tokens : List Token) : Option (List Token) :=
  if isSpace c then some tokens
  else match c with
    | '[' => some (.openList :: tokens)
    | ']' => some (.closeList :: tokens)
    | '\x7b' => some (.openObject :: tokens)
    | '\x7d' => some (.closeObject :: tokens)
    | ',' => some (.comma :: tokens)
    | ':' => some (.colon :: tokens)
    | _ => none

/-- The tokens of a text, after those read so far, which are given in reverse. -/
def tokens? : Mode → List Token → List Char → Option (List Token)
  | .word read, tokens, [] => (closeWord? read tokens).map List.reverse
  | .string _, _, [] => none
  | .word read, tokens, c :: rest =>
      if isWordChar c then tokens? (.word (c :: read)) tokens rest
      else
        match closeWord? read tokens with
        | none => none
        | some tokens =>
            if c == '"' then tokens? (.string .start) tokens rest
            else
              match punctuate? c tokens with
              | none => none
              | some tokens => tokens? (.word []) tokens rest
  | .string s, tokens, '"' :: rest => tokens? (.word []) (s.token :: tokens) rest
  | .string s, tokens, '\\' :: 'u' :: a :: b :: c :: d :: rest =>
      match hex4? a b c d with
      | none => none
      | some unit => tokens? (.string (s.pushUnit unit)) tokens rest
  | .string s, tokens, '\\' :: c :: rest =>
      match escape? c with
      | none => none
      | some c => tokens? (.string (s.push c)) tokens rest
  | .string s, tokens, c :: rest =>
      if c.toNat < 0x20 then none else tokens? (.string (s.push c)) tokens rest

/-- A list or an object that is still open, with what it holds so far in reverse. -/
inductive Frame where
  | list (items : List Document)
  | object (entries : List (Option String × Document)) (key : Option String)

/-- The number of lists and objects that may be open at once. -/
def maxNesting : Nat := 127

/-- The document of a list or an object that is closed while `depth` others are open. -/
def nested (depth : Nat) (d : Document) : Document := if depth < maxNesting then d else .faulty

/-- The document of a text token. -/
def ofText : Option String → Document
  | some s => .text s
  | none => .faulty

mutual

/-- Read a value; the frames are what it stands in, and `depth` is their number. -/
def value? (depth : Nat) (frames : List Frame) : List Token → Option Document
  | .scalar v :: rest => after? v depth frames rest
  | .text s :: rest => after? (ofText s) depth frames rest
  | .openList :: .closeList :: rest => after? (nested depth (.list [])) depth frames rest
  | .openList :: rest => value? (depth + 1) (.list [] :: frames) rest
  | .openObject :: .closeObject :: rest => after? (nested depth (.object [])) depth frames rest
  | .openObject :: .text key :: .colon :: rest =>
      value? (depth + 1) (.object [] key :: frames) rest
  | _ => none

/-- Go on after a value has been read. -/
def after? (v : Document) (depth : Nat) : List Frame → List Token → Option Document
  | [], [] => some v
  | .list items :: frames, .comma :: rest => value? depth (.list (v :: items) :: frames) rest
  | .list items :: frames, .closeList :: rest =>
      after? (nested (depth - 1) (.list (v :: items).reverse)) (depth - 1) frames rest
  | .object entries key :: frames, .comma :: .text next :: .colon :: rest =>
      value? depth (.object ((key, v) :: entries) next :: frames) rest
  | .object entries key :: frames, .closeObject :: rest =>
      after? (nested (depth - 1) (.ofEntries ((key, v) :: entries).reverse)) (depth - 1) frames rest
  | _, _ => none

end

end Json

/-- The document of a JSON text, in which parts may be faulty. -/
def ofLenientJson? (s : String) : Option Document := do
  Json.value? 0 [] (← Json.tokens? (.word []) [] s.toList)

/-- The document of a JSON text that is sound in all its parts. -/
def ofJson? (s : String) : Option Document := (ofLenientJson? s).filter isSound

end TraversalSql.Document
