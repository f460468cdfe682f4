import TolkAnalysis.Token.Kind

/-!
# Lexemes

`scan c rest` reads one lexeme from a text that begins with `c` and goes on
with `rest`. It says what the lexeme is and how many characters of `rest` it
takes, always the longest lexeme that begins there. Blanks and comments are
lexemes too; they are left out of the token list later.

Where no lexeme begins, one unrecognized token is read instead. An open string
or an open backtick name reaches as far as its body could go on, an open block
comment takes all that is left, and anything else is a single character.
-/

namespace TolkAnalysis

/-- What a lexeme is: skipped text or a token. -/
inductive LexemeKind where
  | blank
  | comment
  | token (kind : TokenKind)
deriving DecidableEq

namespace Scan

/-- The characters between tokens: space, tab, line feed, carriage return and
form feed. -/
def isBlank (c : Char) : Bool :=
  c = ' ' || c = '\t' || c = '\n' || c = '\r' || c = '\x0c'

/-- A name begins with an ASCII letter, an underscore or a dollar sign. -/
def isWordStart (c : Char) : Bool := c.isAlpha || c = '_' || c = '$'

/-- A name goes on with such a character or a decimal digit. -/
def isWordPart (c : Char) : Bool := isWordStart c || c.isDigit

/-- A digit of a hexadecimal number, or the mark that groups digits. -/
def isHexPart (c : Char) : Bool :=
  c.isDigit || ('a' ≤ c && c ≤ 'f') || ('A' ≤ c && c ≤ 'F') || c = '_'

/-- A digit of a binary number, or the mark that groups digits. -/
def isBinaryPart (c : Char) : Bool := c = '0' || c = '1' || c = '_'

/-- A digit of a decimal number, or the mark that groups digits. -/
def isDecimalPart (c : Char) : Bool := c.isDigit || c = '_'

/-- Length of the longest run of characters of a class at the start of a text. -/
def run (p : Char → Bool) (cs : List Char) : Nat := (cs.takeWhile p).length

/-- Number of characters up to the end of the first `*/`, if there is one. -/
def commentEnd? : List Char → Option Nat
  | [] => none
  | '*' :: '/' :: _ => some 2
  | _ :: cs => (commentEnd? cs).map (· + 1)

/-- Length of the body of a string after its opening quote, and whether a
closing quote was found, which is then counted. The body ends before a line
feed and before a backslash that nothing on the same line follows. -/
def stringBody : List Char → Nat × Bool
  | [] => (0, false)
  | '"' :: _ => (1, true)
  | '\n' :: _ => (0, false)
  | ['\\'] => (0, false)
  | '\\' :: '\n' :: _ => (0, false)
  | '\\' :: _ :: cs => let (n, closed) := stringBody cs; (n + 2, closed)
  | _ :: cs => let (n, closed) := stringBody cs; (n + 1, closed)

/-- What a word is: a keyword, the underscore or a name. -/
def wordKind (word : String) : TokenKind :=
  if word = "_" then .underscore
  else ((TokenKind.keywords.find? (·.1 = word)).map (·.2)).getD .ident

/-- A lexeme that begins with a slash. -/
def afterSlash (rest : List Char) : LexemeKind × Nat :=
  match rest with
  | '/' :: cs => (.comment, 1 + run (· ≠ '\n') cs)
  | '*' :: cs =>
      match commentEnd? cs with
      | some n => (.comment, 1 + n)
      | none => (.token .unrecognized, 1 + cs.length)
  | '=' :: _ => (.token .slashAssign, 1)
  | _ => (.token .slash, 0)

/-- A lexeme that begins with a backtick. -/
def afterBacktick (rest : List Char) : LexemeKind × Nat :=
  let body := run (fun c => c ≠ '\x60' && c ≠ '\n') rest
  if 0 < body ∧ (rest.drop body).head? = some '\x60' then (.token .ident, body + 1)
  else (.token .unrecognized, body)

/-- A lexeme that begins with a double quote. -/
def afterQuote (rest : List Char) : LexemeKind × Nat :=
  let (n, closed) := stringBody rest
  (.token (if closed then .stringLit else .unrecognized), n)

/-- A lexeme that begins with the decimal digit `c`. A base mark counts only if
a digit of that base follows it. -/
def afterDigit (c : Char) (rest : List Char) : LexemeKind × Nat :=
  let based (mark : Char → Bool) (part : Char → Bool) : Option Nat :=
    match rest with
    | x :: cs => if c = '0' && mark x && 0 < run part cs then some (1 + run part cs) else none
    | [] => none
  let length := (based (fun x => x = 'x' || x = 'X') isHexPart).getD
    ((based (fun x => x = 'b' || x = 'B') isBinaryPart).getD (run isDecimalPart rest))
  (.token .number, length)

/-- The delimiter or operator at the start of a text, the longest that fits. -/
def operator? (cs : List Char) : Option (String × TokenKind) :=
  TokenKind.operators.find? fun (spelling, _) => spelling.toList.isPrefixOf cs

/-- One lexeme of the text that begins with `c` and goes on with `rest`: what
it is, and how many characters of `rest` belong to it. -/
def scan (c : Char) (rest : List Char) : LexemeKind × Nat :=
  if isBlank c then (.blank, run isBlank rest)
  else if c = '/' then afterSlash rest
  else if isWordStart c then
    let n := run isWordPart rest
    (.token (wordKind (String.ofList (c :: rest.take n))), n)
  else if c = '\x60' then afterBacktick rest
  else if c.isDigit then afterDigit c rest
  else if c = '"' then afterQuote rest
  else
    match operator? (c :: rest) with
    | some (spelling, kind) => (.token kind, spelling.length - 1)
    | none => (.token .unrecognized, 0)

end Scan

end TolkAnalysis
