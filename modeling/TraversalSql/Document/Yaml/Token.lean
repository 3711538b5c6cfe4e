import TraversalSql.Document
import TraversalSql.Document.Yaml.Gap

/-!
The tokens of YAML texts.  Indentation is made explicit: a token says where a block collection
starts and another where it ends, as in a flow collection.

A key is known for a key only when the colon after it is read.  So a token that may turn out to be a
key is remembered as a candidate, and the tokens that go before a key are put in front of it later.
A candidate expires at the end of its line.
-/

namespace TraversalSql.Document.Yaml

/-- A token of a YAML text. -/
inductive Token where
  /-- Three dashes, before a document. -/
  | documentStart
  /-- Three dots, after a document. -/
  | documentEnd
  /-- The start of a block list. -/
  | blockList
  /-- The start of a block object. -/
  | blockObject
  /-- The end of a block list or a block object. -/
  | blockEnd
  | openList
  | closeList
  | openObject
  | closeObject
  | comma
  /-- The dash before an element of a block list. -/
  | dash
  /-- What follows is a key. -/
  | key
  /-- What follows is the value of a key. -/
  | value
  | scalar (content : Document)

/-- A token that may turn out to be the first of a key. -/
structure Candidate where
  /-- The number of the tokens before it. -/
  position : Nat
  mark : Mark
  /-- Whether it stands where only a key may stand. -/
  required : Bool

/-- The greatest distance in bytes between the start of a key and its colon. -/
def maxKeyBytes : Nat := 1024

/-- Whether a colon at a place comes too late for a candidate. -/
def Candidate.isStale (candidate : Candidate) (mark : Mark) : Bool :=
  candidate.mark.line < mark.line || candidate.mark.bytes + maxKeyBytes < mark.bytes

/-- Keep a candidate as long as it is not stale; one that is required must not get stale. -/
def Candidate.expire? (mark : Mark) : Option Candidate → Option (Option Candidate)
  | none => some none
  | some candidate =>
      if !candidate.isStale mark then some (some candidate)
      else if candidate.required then none
      else some none

/-- The layout of the text read so far, with its tokens. -/
structure Layout where
  mark : Mark
  /-- The columns of the block collections that are open, the innermost first. -/
  indents : List Nat
  /-- The candidate of the innermost collection that is open. -/
  candidate : Option Candidate
  /-- The candidates around each flow collection that is open, the innermost first. -/
  outer : List (Option Candidate)
  /-- Whether a key may stand here. -/
  keyAllowed : Bool
  /-- The tokens in reverse. -/
  tokens : List Token
  count : Nat

namespace Layout

def start : Layout := ⟨.start, [], none, [], true, [], 0⟩

def inFlow (s : Layout) : Bool := !s.outer.isEmpty

/-- Whether a column is deeper than the block collections that are open. -/
def isDeeper (s : Layout) (column : Nat) : Bool := s.indents.head?.all (· < column)

def emit (s : Layout) (token : Token) : Layout :=
  { s with tokens := token :: s.tokens, count := s.count + 1 }

/-- Put tokens, given in reverse, in front of the token that has `position` tokens before it. -/
def insert (s : Layout) (position : Nat) (tokens : List Token) : Layout :=
  let (after, before) := s.tokens.splitAt (s.count - position)
  { s with tokens := after ++ tokens ++ before, count := s.count + tokens.length }

/-- Let the candidates expire that are stale here. -/
def expire? (s : Layout) : Option Layout := do
  return { s with
    candidate := ← Candidate.expire? s.mark s.candidate
    outer := ← s.outer.mapM (Candidate.expire? s.mark) }

/-- Give up the candidate, which must not be required. -/
def dropCandidate? (s : Layout) : Option Layout :=
  if s.candidate.any Candidate.required then none else some { s with candidate := none }

/-- Make the next token the candidate, if a key may stand here. -/
def saveCandidate? (s : Layout) : Option Layout :=
  if !s.keyAllowed then some s
  else do
    let s ← s.dropCandidate?
    let required := !s.inFlow && s.indents.head? == some s.mark.column
    return { s with candidate := some ⟨s.count, s.mark, required⟩ }

/-- End the block collections that satisfy a condition, unless a flow collection is open. -/
def endBlocks (s : Layout) (ended : Nat → Bool) : Layout :=
  if s.inFlow then s
  else
    let closing := (s.indents.takeWhile ended).map fun _ => Token.blockEnd
    { s with
      indents := s.indents.dropWhile ended
      tokens := closing ++ s.tokens
      count := s.count + closing.length }

/-- Start a block collection here, if it is deeper than those that are open. -/
def startBlock (s : Layout) (token : Token) : Layout :=
  if s.isDeeper s.mark.column then
    { s with indents := s.mark.column :: s.indents }.emit token
  else s

/-- Start a block collection here if no flow collection is open; a key must be allowed then. -/
def startBlock? (s : Layout) (token : Token) : Option Layout :=
  if s.inFlow then some s
  else if s.keyAllowed then some (s.startBlock token)
  else none

/-- Read the mark before or after a document. -/
def boundary? (s : Layout) (token : Token) : Option Layout := do
  let s ← (s.endBlocks fun _ => true).dropCandidate?
  return { s with keyAllowed := false }.emit token

/-- Read the start of a flow collection. -/
def openFlow? (s : Layout) (token : Token) : Option Layout := do
  let s ← s.saveCandidate?
  let inner := { s with candidate := none, outer := s.candidate :: s.outer, keyAllowed := true }
  return inner.emit token

/-- Read the end of a flow collection. -/
def closeFlow? (s : Layout) (token : Token) : Option Layout := do
  let s ← s.dropCandidate?
  let s := match s.outer with
    | [] => s
    | candidate :: outer => { s with candidate, outer }
  return { s with keyAllowed := false }.emit token

/-- Read a comma within a flow collection. -/
def comma? (s : Layout) : Option Layout := do
  return { ← s.dropCandidate? with keyAllowed := true }.emit .comma

/-- Read the dash before an element of a block list. -/
def dash? (s : Layout) : Option Layout := do
  let s ← (← s.startBlock? .blockList).dropCandidate?
  return { s with keyAllowed := true }.emit .dash

/-- Read the question mark before a key. -/
def key? (s : Layout) : Option Layout := do
  let s ← (← s.startBlock? .blockObject).dropCandidate?
  return { s with keyAllowed := !s.inFlow }.emit .key

/-- Make the candidate a key. -/
def promote (s : Layout) (candidate : Candidate) : Layout :=
  let column := candidate.mark.column
  let s := { s with candidate := none, keyAllowed := false }
  if !s.inFlow && s.isDeeper column then
    { s with indents := column :: s.indents }.insert candidate.position [.key, .blockObject]
  else s.insert candidate.position [.key]

/-- Read the colon before a value. -/
def value? (s : Layout) : Option Layout :=
  match s.candidate with
  | some candidate => some ((s.promote candidate).emit .value)
  | none => do
      let s ← s.startBlock? .blockObject
      return { s with keyAllowed := !s.inFlow }.emit .value

/-- Read the first character of a scalar. -/
def scalar? (s : Layout) : Option Layout := do
  return { ← s.saveCandidate? with keyAllowed := false }

/-- Append a plain scalar that has been read, given in reverse, with the gap after it. -/
def closePlain (s : Layout) (read : List Char) (gap : Gap) : Layout :=
  { s with keyAllowed := s.keyAllowed || gap.isBroken }.emit
    (.scalar (.plain (String.ofList read.reverse)))

/-- Append a quoted scalar that has been read, given in reverse. -/
def closeQuoted (s : Layout) (read : List Char) : Layout :=
  s.emit (.scalar (.text (String.ofList read.reverse)))

end Layout

/-- What the reader of tokens is inside of; characters read so far are given in reverse. -/
inductive Mode where
  | between
  | comment
  | plain (read : List Char) (gap : Gap)
  | quoted (quote : Char) (read : List Char) (gap : Gap)
  /-- Pass one character and `more` others before going on. -/
  | pass (more : Nat) (next : Mode)

namespace Mode

/-- Whether three dashes or three dots stand here with nothing right after them. -/
def isBoundary (c : Char) : List Char → Bool
  | second :: third :: rest =>
      (c == '-' || c == '.') && second == c && third == c && blankNext rest
  | _ => false

/-- The punctuation of flow collections. -/
def isFlowMark (c : Char) : Bool := c ∈ [',', '[', ']', '\x7b', '\x7d']

/-- Whether the text goes on with a character that a colon inside a flow scalar may not stand
before. -/
def flowMarkNext : List Char → Bool
  | [] => false
  | c :: _ => isFlowMark c || c == '?'

/-- Characters with which a plain scalar may not start and that have no other use here. -/
def isReserved (c : Char) : Bool := c ∈ ['&', '*', '!', '|', '>', '%', '@', '\x60']

/-- The character of a one-letter escape in a double-quoted scalar. -/
def escape? : Char → Option Char
  | '0' => some (Char.ofNat 0)
  | 'a' => some (Char.ofNat 7)
  | 'b' => some (Char.ofNat 8)
  | 't' => some '\t'
  | '\t' => some '\t'
  | 'n' => some '\n'
  | 'v' => some (Char.ofNat 11)
  | 'f' => some (Char.ofNat 12)
  | 'r' => some '\r'
  | 'e' => some (Char.ofNat 27)
  | ' ' => some ' '
  | '"' => some '"'
  | '/' => some '/'
  | '\\' => some '\\'
  | 'N' => some (Char.ofNat 0x85)
  | '_' => some (Char.ofNat 0xA0)
  | 'L' => some (Char.ofNat 0x2028)
  | 'P' => some (Char.ofNat 0x2029)
  | _ => none

/-- The character whose code is written with the given number of hexadecimal digits. -/
def hexChar? (length : Nat) (cs : List Char) : Option Char := do
  let digits := cs.take length
  let code ← (Text.readDigits 16 0x10FFFF digits).toOption
  if digits.length = length ∧ code.isValidChar then some (Char.ofNat code) else none

/-- Read an escape in a double-quoted scalar, of which the characters after the backslash are
given. -/
def escaped? (read : List Char) (cs : List Char) : Option Mode :=
  let hex := fun length rest => do
    let c ← hexChar? length rest
    return .pass length (.quoted '"' (c :: read) .none)
  match cs with
  | [] => none
  | 'x' :: rest => hex 2 rest
  | 'u' :: rest => hex 4 rest
  | 'U' :: rest => hex 8 rest
  | c :: _ =>
      if isBreak c then some (.pass 0 (.quoted '"' read .escaped))
      else do
        let c ← escape? c
        return .pass 0 (.quoted '"' (c :: read) .none)

/-- Read the first character of a token. -/
def begin? (s : Layout) (c : Char) (rest : List Char) : Option (Mode × Layout) :=
  let stay := fun next : Option Layout => next.map fun s => (between, s)
  let plain := s.scalar?.map fun s => (Mode.plain [c] .none, s)
  if s.mark.column = 0 && isBoundary c rest then do
    let s ← s.boundary? (if c == '-' then .documentStart else .documentEnd)
    return (.pass 1 .between, s)
  else match c with
    | '[' => stay (s.openFlow? .openList)
    | '\x7b' => stay (s.openFlow? .openObject)
    | ']' => stay (s.closeFlow? .closeList)
    | '\x7d' => stay (s.closeFlow? .closeObject)
    | ',' => stay s.comma?
    | '-' => if blankNext rest then stay s.dash? else plain
    | '?' => if s.inFlow || blankNext rest then stay s.key? else plain
    | ':' => if s.inFlow || blankNext rest then stay s.value? else plain
    | '\'' => s.scalar?.map fun s => (.quoted c [] .none, s)
    | '"' => s.scalar?.map fun s => (.quoted c [] .none, s)
    | _ => if isReserved c then none else plain

/-- Read a character between tokens.  A tab does not indent, and a byte order mark may stand before
the other characters of a line. -/
def between? (s : Layout) (c : Char) (rest : List Char) : Option (Mode × Layout) :=
  if c == ' ' || (c == byteOrderMark && s.mark.column = 0) then some (.between, s)
  else if c == '\t' then
    if s.inFlow || !s.keyAllowed then some (.between, s) else none
  else if c == '#' then some (.comment, s)
  else if isBreak c then
    some (.between, { s with keyAllowed := s.keyAllowed || !s.inFlow })
  else do
    let s ← s.expire?
    begin? (s.endBlocks (s.mark.column < ·)) c rest

/-- Whether a plain scalar ends before a character that is not a blank. -/
def endsPlain (s : Layout) (gap : Gap) (c : Char) (rest : List Char) : Bool :=
  let outdented := !s.inFlow && !s.isDeeper s.mark.column
  let apart := outdented || (s.mark.column = 0 && isBoundary c rest) || c == '#'
  (!gap.isNone && apart) || (c == ':' && blankNext rest) || (s.inFlow && isFlowMark c)

/-- Read a character in a plain scalar or after it. -/
def plain? (read : List Char) (gap : Gap) (s : Layout) (c : Char) (rest : List Char) :
    Option (Mode × Layout) :=
  if isGapBlank c || isBreak c then
    if c == '\t' && gap.isBroken && !s.isDeeper s.mark.column then none
    else some (.plain read (gap.push c), s)
  else if endsPlain s gap c rest then between? (s.closePlain read gap) c rest
  else if s.inFlow && c == ':' && flowMarkNext rest then none
  else some (.plain (c :: (gap.folded ++ read)) .none, s)

/-- Read a character in a quoted scalar.  Between single quotes, a quote is written twice. -/
def quoted? (quote : Char) (read : List Char) (gap : Gap) (s : Layout) (c : Char)
    (rest : List Char) : Option (Mode × Layout) :=
  if isGapBlank c || isBreak c then some (.quoted quote read (gap.push c), s)
  else if s.mark.column = 0 && isBoundary c rest then none
  else
    let read := gap.folded ++ read
    if quote == '"' && c == '\\' then (escaped? read rest).map fun mode => (mode, s)
    else if c != quote then some (.quoted quote (c :: read) .none, s)
    else if quote == '\'' && rest.head? == some quote then
      some (.pass 0 (.quoted quote (c :: read) .none), s)
    else some (.between, s.closeQuoted read)

/-- Read a character, of which the rest of the text comes after. -/
def step? (mode : Mode) (s : Layout) (c : Char) (rest : List Char) : Option (Mode × Layout) :=
  match mode with
  | .between => between? s c rest
  | .comment => if isBreak c then between? s c rest else some (.comment, s)
  | .plain read gap => plain? read gap s c rest
  | .quoted quote read gap => quoted? quote read gap s c rest
  | .pass 0 next => some (next, s)
  | .pass (more + 1) next => some (.pass more next, s)

/-- The layout at the end of a text. -/
def finish? (mode : Mode) (s : Layout) : Option Layout := do
  let s ← match mode with
    | .between => some s
    | .comment => some s
    | .plain read gap => some (s.closePlain read gap)
    | _ => none
  ((← s.expire?).endBlocks fun _ => true).dropCandidate?

/-- Read the rest of a text. -/
def run? : Mode → Layout → List Char → Option Layout
  | mode, s, [] => mode.finish? s
  | mode, s, c :: rest =>
      match mode.step? s c rest with
      | none => none
      | some (next, s) => run? next { s with mark := s.mark.next c } rest

end Mode

def Token.ofText? (cs : List Char) : Option (List Token) := do
  if cs.all isAllowed then
    return (← Mode.run? .between .start (unifyBreaks cs)).tokens.reverse
  else none

end TraversalSql.Document.Yaml
