import TolkAnalysis.Grammar.Error
import TolkAnalysis.Tree.Arena

/-!
# Parsers

A parser reads tokens and adds nodes to an arena. Its state is a cursor, which
holds the token read last and the tokens that are left, with the nodes built so
far and the errors met so far. A parser may fail; the state then stays as it is
at the point of failure, and only `attempt` and `recover` go back, to a
checkpoint that tells how much to keep.

The grammar is a function from nonterminals to parsers, given the parsers of
the nonterminals. Loops take a bound on the number of rounds: each round reads
a token, so a bound above the number of tokens is never met.
-/

namespace TolkAnalysis

/-- A place between the tokens. -/
structure Cursor where
  /-- The token read last. -/
  previous : Option Token
  /-- The tokens that are left. -/
  rest : List Token

namespace Cursor

/-- The next token, or the end of the file when no token is left. -/
def current (c : Cursor) : Token :=
  c.rest.head?.getD (Token.endOfFile ((c.previous.map (·.span.stop)).getD 0))

/-- The kind of the token at a distance from the next one. -/
def kindAt (c : Cursor) (distance : Nat) : TokenKind :=
  ((c.rest[distance]?).map (·.kind)).getD .endOfFile

/-- The next token is of the given kind. -/
def isAt (c : Cursor) (kind : TokenKind) : Bool := c.current.kind == kind

/-- No token is left but the end of the file. -/
def isAtEnd (c : Cursor) : Bool := c.isAt .endOfFile

/-- The next token is a name spelled `word`. -/
def isAtWord (c : Cursor) (word : String) : Bool :=
  c.isAt .ident && c.current.text == word

/-- Where the next token begins. -/
def start (c : Cursor) : Nat := c.current.span.start

/-- Where the token read last ends; before any token is read, where the next
one begins. -/
def previousStop (c : Cursor) : Nat :=
  (c.previous.map (·.span.stop)).getD c.start

/-- The token at a distance touches the one after it. -/
def touches (c : Cursor) (distance : Nat) : Bool :=
  match c.rest[distance]?, c.rest[distance + 1]? with
  | some a, some b => a.span.stop == b.span.start
  | _, _ => false

/-- The next tokens are `>` and `>`, touching. -/
def isAtShiftRight (c : Cursor) : Bool :=
  c.isAt .gt && c.kindAt 1 == .gt && c.touches 0

/-- The next tokens are `>` and `=`, touching. -/
def isAtGreaterEqual (c : Cursor) : Bool :=
  c.isAt .gt && c.kindAt 1 == .eq && c.touches 0

/-- The next tokens are `>`, `>` and `=`, touching. -/
def isAtShiftRightAssign (c : Cursor) : Bool :=
  c.isAtShiftRight && c.kindAt 2 == .eq && c.touches 1

/-- The next token belongs to what stands between braces: it is no closing
brace, and the file does not end. -/
def isInside (c : Cursor) : Bool := !(c.isAt .rBrace || c.isAtEnd)

/-- The next token is the word `mutate` before a name. -/
def isAtMutate (c : Cursor) : Bool := c.isAtWord "mutate" && c.kindAt 1 == .ident

/-- The place after the next token. The end of the file is never passed. -/
def advance (c : Cursor) : Cursor :=
  match c.rest with
  | t :: rest => if t.kind == .endOfFile then c else ⟨some t, rest⟩
  | [] => c

/-- The error of a parser that expects something else than the next token. -/
def mismatch (c : Cursor) (expected : Expected) : ParseError :=
  if c.isAt .unrecognized then .unknownToken c.current.span
  else .unexpectedToken expected c.current.kind c.current.span

end Cursor

/-- What a parser has before it and behind it. -/
structure ParserState extends Cursor where
  arena : Arena
  errors : Array ParseError

/-- A place to go back to: the cursor, and how many nodes and errors there
were. -/
structure Checkpoint extends Cursor where
  nodes : Nat
  errors : Nat

namespace ParserState

/-- The place that a parser has come to. -/
def checkpoint (s : ParserState) : Checkpoint := ⟨s.toCursor, s.arena.size, s.errors.size⟩

/-- The state after the next token. -/
def advance (s : ParserState) : ParserState := { s with toCursor := s.toCursor.advance }

/-- The tokens of an earlier place with the nodes and errors that there were:
what was built since is dropped. -/
def rewind (s : ParserState) (earlier : Checkpoint) : ParserState where
  toCursor := earlier.toCursor
  arena := s.arena.truncate earlier.nodes
  errors := s.errors.take earlier.errors

end ParserState

/-- A computation that reads tokens and may fail. -/
abbrev Parser := ExceptT ParseError (StateM ParserState)

namespace Parser

/-- The place between the tokens. -/
def cursor : Parser Cursor := do
  return (← get).toCursor

/-- Fails, expecting something else than the next token. -/
def fail {α : Type} (expected : Expected) : Parser α := do
  throw ((← cursor).mismatch expected)

/-- The next token is of the given kind. -/
def check (kind : TokenKind) : Parser Bool := do
  return (← cursor).isAt kind

/-- The next token is a name spelled `word`. -/
def checkWord (word : String) : Parser Bool := do
  return (← cursor).isAtWord word

/-- Reads the next token. -/
def next : Parser Token := do
  let t := (← cursor).current
  modify (·.advance)
  return t

/-- Reads the next token if it is of the given kind, and says whether it did. -/
def eat (kind : TokenKind) : Parser Bool := do
  if ← check kind then
    modify (·.advance)
    return true
  else
    return false

/-- Reads a token of the given kind. -/
def expect (kind : TokenKind) : Parser Span := do
  if ← check kind then
    return (← next).span
  else
    fail (.token kind)

/-- Adds a node. -/
def push (kind : NodeKind) (span : Span) (children : List Child) : Parser Nat :=
  modifyGet fun s => (s.arena.size, { s with arena := s.arena.push kind span children })

/-- Adds a node that reaches from `start` to the end of the token read last. -/
def finish (kind : NodeKind) (start : Nat) (children : List Child) : Parser Nat := do
  push kind ⟨start, max (← cursor).previousStop start⟩ children

/-- Reads the next token as a node without children. -/
def leaf (kind : NodeKind) : Parser Nat := do
  push kind (← next).span []

/-- Reads a name as a node without children. -/
def expectName (kind : NodeKind) : Parser Nat := do
  if ← check .ident then leaf kind else fail (.token .ident)

/-- Reads a number of tokens and answers the place of the last one, or the
given place when there is none to read. -/
def skip : Nat → Span → Parser Span
  | 0, last => pure last
  | count + 1, _ => do skip count (← next).span

/-- Reads the next `count` tokens as one operator. -/
def operator (count : Nat) : Parser Nat := do
  let first := (← cursor).current.span
  let last ← skip count first
  push .operator (first.merge last) []

/-- Runs a parser. If it fails, or if `accept` refuses the place after it,
goes back to where it began and answers nothing. -/
def attempt {α : Type} (p : Parser α) (accept : Cursor → Bool) : Parser (Option α) :=
  fun s =>
    let earlier := s.checkpoint
    match p s with
    | (.ok a, s') =>
        if accept s'.toCursor then (.ok (some a), s') else (.ok none, s'.rewind earlier)
    | (.error _, s') => (.ok none, s'.rewind earlier)

/-- Repeats a step until it answers nothing, for at most `bound` rounds, and
answers the last value. -/
def iterate {α : Type} (step : α → Parser (Option α)) : Nat → α → Parser α
  | 0, a => pure a
  | bound + 1, a => do
      match ← step a with
      | some a' => iterate step bound a'
      | none => pure a

/-- Repeats a parser until it answers nothing, for at most `bound` rounds, and
collects its answers. -/
def collect {α : Type} (item : Parser (Option α)) : Nat → Parser (List α)
  | 0 => pure []
  | bound + 1 => do
      match ← item with
      | some a => return a :: (← collect item bound)
      | none => pure []

/-- Reads items with commas between them up to, and without, a closing token.
Says whether a comma follows the last item. -/
def commaList {α : Type} (close : TokenKind) (item : Parser α) : Nat → Parser (List α × Bool)
  | 0 => pure ([], false)
  | bound + 1 => do
      if ← check close then
        return ([], false)
      else
        let a ← item
        if ← eat .comma then
          if ← check close then
            return ([a], true)
          else
            let (as, trailing) ← commaList close item bound
            return (a :: as, trailing)
        else
          return ([a], false)

/-- Reads an item if `here` holds of the place before it. -/
def whenAt {α : Type} (here : Cursor → Bool) (item : Parser α) : Parser (Option α) := do
  if here (← cursor) then return some (← item) else return none

/-- Reads the next token as a child in a slot if `here` holds of the place before it. -/
def mark? (slot : Field) (kind : NodeKind) (here : Cursor → Bool) : Parser (List Child) := do
  if here (← cursor) then return [.labeled slot (← leaf kind)] else return []

/-- Reads a token of the given kind and a child in a slot after it, if that
token comes next. -/
def after? (kind : TokenKind) (slot : Field) (child : Parser Nat) : Parser (List Child) := do
  if ← eat kind then return [.labeled slot (← child)] else return []

/-- Reads any commas and semicolons. -/
def skipSeparators : Nat → Parser Unit
  | 0 => pure ()
  | bound + 1 => do
      if ← eat .comma then skipSeparators bound
      else if ← eat .semi then skipSeparators bound
      else pure ()

/-- Skips tokens until `stop` holds of the next one outside braces, a closing
brace without its opening one comes next, or the file ends. Nothing is skipped
for `stop` before something has been `consumed`. -/
def skipTo (stop : TokenKind → Bool) : Nat → Nat → Bool → Parser Bool
  | 0, _, consumed => pure consumed
  | bound + 1, depth, consumed => do
      let kind := (← cursor).current.kind
      if kind == .endOfFile || (depth == 0 && consumed && stop kind)
          || (kind == .rBrace && depth == 0) then
        return consumed
      else
        modify (·.advance)
        let depth := if kind == .lBrace then depth + 1
          else if kind == .rBrace then depth - 1 else depth
        skipTo stop bound depth true

/-- Reads one token if nothing has been `consumed`. -/
def readUnless (consumed : Bool) : Parser Unit := do
  if consumed then return () else modify (·.advance)

/-- Records an error, drops the nodes built since `earlier`, skips tokens until
`stop` holds outside braces, and covers what is skipped with one node. At
least one token is read since `earlier`, unless none is left. -/
def recover (bound : Nat) (error : ParseError) (earlier : Checkpoint)
    (stop : TokenKind → Bool) : Parser Nat := do
  modify fun s => { s with
    errors := s.errors.push error
    arena := s.arena.truncate earlier.nodes }
  let moved := (← cursor).rest.length < earlier.rest.length
  let consumed ← skipTo stop bound 0 moved
  readUnless consumed
  finish .error earlier.start []

end Parser

end TolkAnalysis
