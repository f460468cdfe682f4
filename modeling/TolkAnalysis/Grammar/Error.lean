import TolkAnalysis.Token.Basic

/-!
# Errors of reading

Reading a file never fails as a whole, but each place at which the text does
not follow the grammar is recorded with its cause: a token other than the
expected one, or text that is no token at all.
-/

namespace TolkAnalysis

/-- What the grammar expects at some point. -/
inductive Expected where
  | token (kind : TokenKind)
  | declaration
  | importPath
  | functionBody
  | packPrefix
  | variablePattern
  | expression
  | memberName
  | type
deriving DecidableEq

namespace Expected

/-- How messages call what is expected. -/
def describe : Expected → String
  | .token kind => kind.describe
  | .declaration => "declaration"
  | .importPath => "import path"
  | .functionBody => "function body"
  | .packPrefix => "pack prefix"
  | .variablePattern => "variable name or pattern"
  | .expression => "expression"
  | .memberName => "field name"
  | .type => "type"

end Expected

/-- Why some text could not be read, and where. -/
inductive ParseError where
  | unexpectedToken (expected : Expected) (found : TokenKind) (span : Span)
  | unknownToken (span : Span)
deriving DecidableEq

namespace ParseError

/-- The place of the token at which reading failed. -/
def span : ParseError → Span
  | .unexpectedToken _ _ s => s
  | .unknownToken s => s

/-- The wording of an error. -/
def message : ParseError → String
  | .unexpectedToken expected found _ =>
      "expected " ++ expected.describe ++ ", found " ++ found.describe
  | .unknownToken _ => "unknown character sequence"

end ParseError

end TolkAnalysis
