import TolkAnalysis.Source.Span
import TolkAnalysis.Token.Scan

/-!
# Tokens of a source text

`lex` cuts a text into lexemes, drops blanks and comments and places each
remaining token in the text. Text that is no token becomes an unrecognized
token, so lexing never fails, and the list always ends with one token at the
end of the file, which covers nothing.
-/

namespace TolkAnalysis

/-- A token with its spelling and its place. -/
structure Token where
  kind : TokenKind
  text : String
  span : Span
deriving DecidableEq, Inhabited

namespace Token

/-- The token that ends a file of the given length. -/
def endOfFile (offset : Nat) : Token :=
  ⟨.endOfFile, "", Span.ofRange offset offset⟩

/-- The tokens of a text whose first character has the given byte offset. -/
def lexFrom (offset : Nat) : List Char → List Token
  | [] => [endOfFile offset]
  | c :: rest =>
      let lexeme := Scan.scan c rest
      let text := String.ofList (c :: rest.take lexeme.2)
      let stop := offset + text.utf8ByteSize
      let later := lexFrom stop (rest.drop lexeme.2)
      match lexeme.1 with
      | .token kind => ⟨kind, text, Span.ofRange offset stop⟩ :: later
      | _ => later
termination_by cs => cs.length
decreasing_by
  simp only [List.length_drop, List.length_cons]
  omega

end Token

/-- The tokens of a source text. -/
def lex (source : String) : List Token := Token.lexFrom 0 source.toList

end TolkAnalysis
