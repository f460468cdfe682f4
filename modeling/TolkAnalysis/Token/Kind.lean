/-!
# Kinds of tokens

A token is a keyword, a name, a literal, a delimiter or an operator; two more
kinds stand for a character sequence that is no token and for the end of the
file. `TokenKind.describe` is how a kind is called in messages: fixed
spellings stand between backticks, the others are described in words. A
greater-than sign is always a token of its own, so that nested type lists can
be closed one level at a time.
-/

namespace TolkAnalysis

/-- What a token is. -/
inductive TokenKind where
  | kwImport
  | kwFun
  | kwStruct
  | kwEnum
  | kwType
  | kwConst
  | kwGlobal
  | kwVal
  | kwVar
  | kwReturn
  | kwIf
  | kwElse
  | kwWhile
  | kwDo
  | kwRepeat
  | kwTry
  | kwCatch
  | kwThrow
  | kwAssert
  | kwBreak
  | kwContinue
  | kwMatch
  | kwTrue
  | kwFalse
  | kwNull
  | kwAs
  | kwIs
  | kwLazy
  | underscore
  | ident
  | number
  | stringLit
  | lParen
  | rParen
  | lBrace
  | rBrace
  | lBracket
  | rBracket
  | lt
  | gt
  | ltEq
  | spaceship
  | shl
  | shlAssign
  | eqEq
  | notEq
  | eq
  | plusAssign
  | minusAssign
  | starAssign
  | slashAssign
  | percentAssign
  | ampAssign
  | pipeAssign
  | caretAssign
  | plus
  | minus
  | star
  | slash
  | percent
  | amp
  | pipe
  | caret
  | tilde
  | bang
  | ampAmp
  | pipePipe
  | question
  | questionQuestion
  | colon
  | semi
  | comma
  | dot
  | arrow
  | fatArrow
  | atSign
  | unrecognized
  | endOfFile
deriving DecidableEq, Hashable, Inhabited

namespace TokenKind

/-- How messages call a kind of token. -/
def describe : TokenKind → String
  | .kwImport => "\x60import\x60"
  | .kwFun => "\x60fun\x60"
  | .kwStruct => "\x60struct\x60"
  | .kwEnum => "\x60enum\x60"
  | .kwType => "\x60type\x60"
  | .kwConst => "\x60const\x60"
  | .kwGlobal => "\x60global\x60"
  | .kwVal => "\x60val\x60"
  | .kwVar => "\x60var\x60"
  | .kwReturn => "\x60return\x60"
  | .kwIf => "\x60if\x60"
  | .kwElse => "\x60else\x60"
  | .kwWhile => "\x60while\x60"
  | .kwDo => "\x60do\x60"
  | .kwRepeat => "\x60repeat\x60"
  | .kwTry => "\x60try\x60"
  | .kwCatch => "\x60catch\x60"
  | .kwThrow => "\x60throw\x60"
  | .kwAssert => "\x60assert\x60"
  | .kwBreak => "\x60break\x60"
  | .kwContinue => "\x60continue\x60"
  | .kwMatch => "\x60match\x60"
  | .kwTrue => "\x60true\x60"
  | .kwFalse => "\x60false\x60"
  | .kwNull => "\x60null\x60"
  | .kwAs => "\x60as\x60"
  | .kwIs => "\x60is\x60"
  | .kwLazy => "\x60lazy\x60"
  | .underscore => "\x60_\x60"
  | .ident => "identifier"
  | .number => "number"
  | .stringLit => "string"
  | .lParen => "\x60(\x60"
  | .rParen => "\x60)\x60"
  | .lBrace => "\x60\x7b\x60"
  | .rBrace => "\x60\x7d\x60"
  | .lBracket => "\x60[\x60"
  | .rBracket => "\x60]\x60"
  | .lt => "\x60<\x60"
  | .gt => "\x60>\x60"
  | .ltEq => "\x60<=\x60"
  | .spaceship => "\x60<=>\x60"
  | .shl => "\x60<<\x60"
  | .shlAssign => "\x60<<=\x60"
  | .eqEq => "\x60==\x60"
  | .notEq => "\x60!=\x60"
  | .eq => "\x60=\x60"
  | .plusAssign => "\x60+=\x60"
  | .minusAssign => "\x60-=\x60"
  | .starAssign => "\x60*=\x60"
  | .slashAssign => "\x60/=\x60"
  | .percentAssign => "\x60%=\x60"
  | .ampAssign => "\x60&=\x60"
  | .pipeAssign => "\x60|=\x60"
  | .caretAssign => "\x60^=\x60"
  | .plus => "\x60+\x60"
  | .minus => "\x60-\x60"
  | .star => "\x60*\x60"
  | .slash => "\x60/\x60"
  | .percent => "\x60%\x60"
  | .amp => "\x60&\x60"
  | .pipe => "\x60|\x60"
  | .caret => "\x60^\x60"
  | .tilde => "\x60~\x60"
  | .bang => "\x60!\x60"
  | .ampAmp => "\x60&&\x60"
  | .pipePipe => "\x60||\x60"
  | .question => "\x60?\x60"
  | .questionQuestion => "\x60??\x60"
  | .colon => "\x60:\x60"
  | .semi => "\x60;\x60"
  | .comma => "\x60,\x60"
  | .dot => "\x60.\x60"
  | .arrow => "\x60->\x60"
  | .fatArrow => "\x60=>\x60"
  | .atSign => "\x60@\x60"
  | .unrecognized => "unknown character"
  | .endOfFile => "end of file"

/-- The token begins a declaration at the top of a file. Reading goes on at
such a token after a declaration that could not be read. -/
def startsItem : TokenKind → Bool
  | .kwImport | .kwFun | .kwStruct | .kwEnum | .kwType | .kwConst | .kwGlobal | .atSign => true
  | _ => false

/-- The keywords and their kinds. -/
def keywords : List (String × TokenKind) :=
  [("import", .kwImport), ("fun", .kwFun), ("struct", .kwStruct), ("enum", .kwEnum),
   ("type", .kwType), ("const", .kwConst), ("global", .kwGlobal), ("val", .kwVal),
   ("var", .kwVar), ("return", .kwReturn), ("if", .kwIf), ("else", .kwElse),
   ("while", .kwWhile), ("do", .kwDo), ("repeat", .kwRepeat), ("try", .kwTry),
   ("catch", .kwCatch), ("throw", .kwThrow), ("assert", .kwAssert), ("break", .kwBreak),
   ("continue", .kwContinue), ("match", .kwMatch), ("true", .kwTrue), ("false", .kwFalse),
   ("null", .kwNull), ("as", .kwAs), ("is", .kwIs), ("lazy", .kwLazy)]

/-- The delimiters and operators and their kinds, the longer spellings first. -/
def operators : List (String × TokenKind) :=
  [("<=>", .spaceship), ("<<=", .shlAssign), ("<=", .ltEq), ("<<", .shl), ("==", .eqEq),
   ("!=", .notEq), ("+=", .plusAssign), ("-=", .minusAssign), ("*=", .starAssign),
   ("/=", .slashAssign), ("%=", .percentAssign), ("&=", .ampAssign), ("|=", .pipeAssign),
   ("^=", .caretAssign), ("&&", .ampAmp), ("||", .pipePipe), ("??", .questionQuestion),
   ("->", .arrow), ("=>", .fatArrow), ("(", .lParen), (")", .rParen), ("\x7b", .lBrace),
   ("\x7d", .rBrace), ("[", .lBracket), ("]", .rBracket), ("<", .lt), (">", .gt), ("=", .eq),
   ("+", .plus), ("-", .minus), ("*", .star), ("/", .slash), ("%", .percent), ("&", .amp),
   ("|", .pipe), ("^", .caret), ("~", .tilde), ("!", .bang), ("?", .question), (":", .colon),
   (";", .semi), (",", .comma), (".", .dot), ("@", .atSign)]

end TokenKind

end TolkAnalysis
