import TolkAnalysis.Grammar.Item
import TolkAnalysis.Tree.Basic

/-!
# Reading a file

`parse` turns a text into a tree. It never fails: the errors are listed beside
the tree, and the text that they made unreadable is covered by nodes of its
own. The root covers the whole text and is stored last.
-/

namespace TolkAnalysis

/-- A tree and the errors met while reading it, in the order of the text. -/
structure ParseOutput where
  tree : Tree
  errors : List ParseError

namespace ParseOutput

/-- Some text could not be read. -/
def hasErrors (output : ParseOutput) : Bool := !output.errors.isEmpty

end ParseOutput

namespace Grammar

/-- The state before any token is read. -/
def initialState (tokens : List Token) : ParserState where
  previous := none
  rest := tokens
  arena := Arena.empty
  errors := #[]

/-- Reads the declarations of a list of tokens: the children of the root, and
the state after the last token. -/
def readFile (tokens : List Token) : List Child × ParserState :=
  let bound := tokens.length + 1
  match fileItems bound (parser bound) (initialState tokens) with
  | (.ok items, s) => (items, s)
  | (.error error, s) => ([], { s with errors := s.errors.push error })

end Grammar

/-- Reads a text as the tree of a file. -/
def parse (file : FileId) (stamp : Nat) (source : String) : ParseOutput :=
  let (items, s) := Grammar.readFile (lex source)
  let whole := Span.ofRange 0 source.utf8ByteSize
  { tree :=
      { file := file
        stamp := stamp
        source := source
        arena := s.arena.push .sourceFile whole items
        root := s.arena.size
        root_lt := by simp }
    errors := s.errors.toList }

end TolkAnalysis
