import TraversalSql.Document.Yaml.Token

/-!
Reading YAML text: block lists and objects, flow collections, plain and quoted scalars, and
comments.  A text holds one document.

One step of the reading machine takes one token.  Its stack holds the collections that are still
open.  Where a token comes too early for a value to have been written, the value is the scalar in
which nothing is written.
-/

namespace TraversalSql.Document.Yaml

/-- What is to be read next in an object, or in a list whose elements may be written as entries. -/
inductive Slot where
  /-- An entry or an element, or the end. -/
  | start
  /-- The key of an entry. -/
  | key
  /-- The mark before the value of a key. -/
  | named (key : Option String)
  /-- The value of a key. -/
  | value (key : Option String)
  /-- What follows an entry or an element. -/
  | idle

/-- A collection that is still open, with what it holds so far in reverse. -/
inductive Frame where
  /-- A block list, which is loose if it stands at the indentation of the object around it;
  `waiting` holds after a dash. -/
  | blockList (loose : Bool) (items : List Document) (waiting : Bool)
  | blockObject (entries : List (Option String × Document)) (slot : Slot)
  | flowList (items : List Document) (slot : Slot)
  | flowObject (entries : List (Option String × Document)) (slot : Slot)

/-- The value of a place in which nothing is written. -/
def nothing : Document := .plain ""

namespace Frame

/-- Whether a value may start in a frame. -/
def isWaiting : Frame → Bool
  | .blockList _ _ waiting => waiting
  | .blockObject _ .key => true
  | .blockObject _ (.value _) => true
  | .flowList _ .start => true
  | .flowList _ .key => true
  | .flowList _ (.value _) => true
  | .flowObject _ .start => true
  | .flowObject _ .key => true
  | .flowObject _ (.value _) => true
  | _ => false

/-- Whether a token comes too early for the value that a frame expects. -/
def lacks : Frame → Token → Bool
  | .blockList _ _ true, .dash => true
  | .blockList _ _ true, .blockEnd => true
  | .blockList true _ true, .key => true
  | .blockList true _ true, .value => true
  | .blockObject _ .key, .key => true
  | .blockObject _ .key, .value => true
  | .blockObject _ .key, .blockEnd => true
  | .blockObject _ (.value _), .key => true
  | .blockObject _ (.value _), .value => true
  | .blockObject _ (.value _), .blockEnd => true
  | .blockObject _ (.named _), .value => false
  | .blockObject _ (.named _), _ => true
  | .flowList _ (.named _), .value => false
  | .flowList _ (.named _), _ => true
  | .flowList _ (.value _), .comma => true
  | .flowList _ (.value _), .closeList => true
  | .flowObject _ .key, .value => true
  | .flowObject _ .key, .comma => true
  | .flowObject _ .key, .closeObject => true
  | .flowObject _ (.named _), .value => false
  | .flowObject _ (.named _), _ => true
  | .flowObject _ (.value _), .comma => true
  | .flowObject _ (.value _), .closeObject => true
  | _, _ => false

/-- Put a value that has been read into a frame.  In a flow object, a value without a mark is a key;
in a flow list, an entry is an object of its own. -/
def put? (v : Document) : Frame → Option Frame
  | .blockList loose items _ => some (.blockList loose (v :: items) false)
  | .blockObject entries .key => some (.blockObject entries (.named v.text?))
  | .blockObject entries (.named key) => some (.blockObject ((key, v) :: entries) .idle)
  | .blockObject entries (.value key) => some (.blockObject ((key, v) :: entries) .idle)
  | .flowList items .start => some (.flowList (v :: items) .idle)
  | .flowList items .key => some (.flowList items (.named v.text?))
  | .flowList items (.named key) => some (.flowList (.ofEntries [(key, v)] :: items) .idle)
  | .flowList items (.value key) => some (.flowList (.ofEntries [(key, v)] :: items) .idle)
  | .flowObject entries .start => some (.flowObject ((v.text?, nothing) :: entries) .idle)
  | .flowObject entries .key => some (.flowObject entries (.named v.text?))
  | .flowObject entries (.named key) => some (.flowObject ((key, v) :: entries) .idle)
  | .flowObject entries (.value key) => some (.flowObject ((key, v) :: entries) .idle)
  | _ => none

/-- The frame after a token that goes on with its collection.  In a flow list the token after the
mark of a key is lost if no key is written. -/
def mark? : Frame → Token → Option Frame
  | .blockList loose items false, .dash => some (.blockList loose items true)
  | .blockObject entries .idle, .key => some (.blockObject entries .key)
  | .blockObject entries (.named key), .value => some (.blockObject entries (.value key))
  | .flowList items .start, .key => some (.flowList items .key)
  | .flowList items .key, .value => some (.flowList items (.named nothing.text?))
  | .flowList items .key, .comma => some (.flowList items (.named nothing.text?))
  | .flowList items .key, .closeList => some (.flowList items (.named nothing.text?))
  | .flowList items (.named key), .value => some (.flowList items (.value key))
  | .flowList items .idle, .comma => some (.flowList items .start)
  | .flowObject entries .start, .key => some (.flowObject entries .key)
  | .flowObject entries (.named key), .value => some (.flowObject entries (.value key))
  | .flowObject entries .idle, .comma => some (.flowObject entries .start)
  | _, _ => none

/-- The document of a frame that a token ends. -/
def close? : Frame → Token → Option Document
  | .blockList false items false, .blockEnd => some (.list items.reverse)
  | .blockObject entries .idle, .blockEnd => some (.ofEntries entries.reverse)
  | .flowList items .start, .closeList => some (.list items.reverse)
  | .flowList items .idle, .closeList => some (.list items.reverse)
  | .flowObject entries .start, .closeObject => some (.ofEntries entries.reverse)
  | .flowObject entries .idle, .closeObject => some (.ofEntries entries.reverse)
  | _, _ => none

/-- The frame of a collection that a token starts.  A dash starts a loose list where an object
expects a key or a value. -/
def open? (outside : Option Frame) : Token → Option Frame
  | .blockList => some (.blockList false [] false)
  | .blockObject => some (.blockObject [] .idle)
  | .openList => some (.flowList [] .start)
  | .openObject => some (.flowObject [] .start)
  | .dash =>
      match outside with
      | some (.blockObject _ _) => some (.blockList true [] true)
      | _ => none
  | _ => none

end Frame

/-- How far the document of a text has been read. -/
inductive Progress where
  /-- Nothing has been read. -/
  | before
  /-- The mark before the document has been read. -/
  | opened
  | done (v : Document)
  /-- The mark after the document has been read. -/
  | closed (v : Document)

/-- The state of the reading machine. -/
structure Machine where
  progress : Progress
  frames : List Frame

namespace Machine

def start : Machine := ⟨.before, []⟩

/-- Put a value that has been read where it belongs. -/
def deliver? (m : Machine) (v : Document) : Option Machine :=
  match m.frames with
  | [] => some { m with progress := .done v }
  | frame :: rest => (frame.put? v).map fun frame => { m with frames := frame :: rest }

/-- Put nothing where a token comes too early for a value. -/
def fill? (m : Machine) (token : Token) : Option Machine :=
  match m.frames with
  | [] => some m
  | frame :: _ => if frame.lacks token then m.deliver? nothing else some m

/-- End a loose list before a token that is not a dash. -/
def tighten? (m : Machine) (token : Token) : Option Machine :=
  match m.frames, token with
  | .blockList true _ false :: _, .dash => some m
  | .blockList true items false :: rest, _ =>
      { m with frames := rest }.deliver? (.list items.reverse)
  | _, _ => some m

/-- Start a value with a token. -/
def begin? (m : Machine) (token : Token) : Option Machine :=
  match token with
  | .scalar v => m.deliver? v
  | _ => (Frame.open? m.frames.head? token).map fun frame => { m with frames := frame :: m.frames }

/-- Take a token within a collection. -/
def inside? (m : Machine) (frame : Frame) (rest : List Frame) (token : Token) : Option Machine :=
  match frame.mark? token with
  | some frame => some { m with frames := frame :: rest }
  | none =>
      match frame.close? token with
      | some v => { m with frames := rest }.deliver? v
      | none => if frame.isWaiting then m.begin? token else none

/-- Take a token outside of all collections. -/
def outside? (m : Machine) (token : Token) : Option Machine :=
  match m.progress, token with
  | .before, .documentStart => some { m with progress := .opened }
  | .before, _ => m.begin? token
  | .opened, .documentEnd => some { m with progress := .closed nothing }
  | .opened, _ => m.begin? token
  | .done v, .documentEnd => some { m with progress := .closed v }
  | .closed v, .documentEnd => some { m with progress := .closed v }
  | _, _ => none

/-- Take one token.  Nothing may have to be put twice: for a key and for its value. -/
def step? (m : Machine) (token : Token) : Option Machine := do
  let m ← (← (← m.fill? token).tighten? token).fill? token
  match m.frames with
  | [] => m.outside? token
  | frame :: rest => m.inside? frame rest token

/-- The document of a machine that has taken the last token. -/
def finish? (m : Machine) : Option Document :=
  match m.frames, m.progress with
  | [], .before => some nothing
  | [], .opened => some nothing
  | [], .done v => some v
  | [], .closed v => some v
  | _, _ => none

end Machine

end Yaml

def ofYaml? (s : String) : Option Document := do
  let tokens ← Yaml.Token.ofText? s.toList
  (← tokens.foldlM Yaml.Machine.step? Yaml.Machine.start).finish?

end TraversalSql.Document
