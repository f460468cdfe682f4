import TolkAnalysis.Grammar.Expression

/-!
# Statements and blocks

A statement that cannot be read costs what stands up to the next semicolon
outside braces, or up to the end of its block: that text is covered by one
node and the block goes on after it. A match that is used as a statement needs
no semicolon.
-/

namespace TolkAnalysis

namespace Grammar

open TolkAnalysis.Parser

/-- The name of a variable, with an optional type and an optional `redef`. -/
def variableName (bound : Nat) (parse : Nonterminal → Parser Nat) (kind : NodeKind) :
    Parser Nat := do
  let start := (← cursor).start
  let name ← leaf kind
  let typed ← after? .colon .typeExpr (type bound parse)
  let redef ← mark? .redef .redef (·.isAtWord "redef")
  finish .varDeclaration start (.labeled .name name :: (typed ++ redef))

/-- Patterns between a pair of brackets. -/
def patternList (bound : Nat) (parse : Nonterminal → Parser Nat) (kind : NodeKind)
    (close : TokenKind) : Parser Nat := do
  let start := (← cursor).start
  let _ ← next
  let (vars, _) ← commaList close (Child.plain <$> parse .variablePattern) bound
  let _ ← expect close
  finish kind start vars

/-- What a declaration of local variables binds: a name, or a tuple or tensor
of patterns. -/
def variablePattern (bound : Nat) (parse : Nonterminal → Parser Nat) : Parser Nat := do
  match (← cursor).current.kind with
  | .lBracket => patternList bound parse .tupleVarsDeclaration .rBracket
  | .lParen => patternList bound parse .tensorVarsDeclaration .rParen
  | .ident => variableName bound parse .identifier
  | .underscore => variableName bound parse .underscore
  | _ => fail .variablePattern

/-- The word that begins a declaration of local variables. -/
def variableKeyword : Parser Unit := do
  if ← eat .kwVal then
    return ()
  else
    let _ ← expect .kwVar

/-- A declaration of local variables, without the semicolon after it. -/
def localVariables (bound : Nat) (parse : Nonterminal → Parser Nat) : Parser Nat := do
  let start := (← cursor).start
  variableKeyword
  let lhs ← variablePattern bound parse
  let value ← after? .eq .assignedVal (expression bound parse)
  finish .localVarsDeclaration start (.labeled .lhs lhs :: value)

/-- A statement. One that cannot be read is covered and skipped, with the
semicolon after it. -/
def statementOrSkipped (bound : Nat) (parse : Nonterminal → Parser Nat) : Parser Nat := do
  let earlier := (← get).checkpoint
  tryCatch (parse .statement) fun error => do
    let skipped ← recover bound error earlier (· == .semi)
    let _ ← eat .semi
    return skipped

/-- One statement of a block. A stray semicolon is read and adds nothing. -/
def blockItem (bound : Nat) (parse : Nonterminal → Parser Nat) : Parser (List Child) := do
  if ← eat .semi then
    return []
  else
    return [.plain (← statementOrSkipped bound parse)]

/-- Statements between braces. -/
def block (bound : Nat) (parse : Nonterminal → Parser Nat) : Parser Nat := do
  let start := (← cursor).start
  let _ ← expect .lBrace
  let statements ← collect (whenAt Cursor.isInside (blockItem bound parse)) bound
  let _ ← expect .rBrace
  finish .blockStatement start statements.flatten

/-- An expression between round brackets, which are dropped. -/
def condition (bound : Nat) (parse : Nonterminal → Parser Nat) : Parser Nat := do
  let _ ← expect .lParen
  let expr ← expression bound parse
  let _ ← expect .rParen
  return expr

/-- What stands after `else`. -/
def alternative (bound : Nat) (parse : Nonterminal → Parser Nat) : Parser Nat := do
  if ← check .kwIf then parse .ifStatement else block bound parse

/-- A conditional statement with an optional alternative. -/
def ifStatement (bound : Nat) (parse : Nonterminal → Parser Nat) : Parser Nat := do
  let start := (← cursor).start
  let _ ← expect .kwIf
  let test ← condition bound parse
  let consequence ← block bound parse
  let other ← after? .kwElse .alternative (alternative bound parse)
  finish .ifStatement start
    ([.labeled .condition test, .labeled .consequence consequence] ++ other)

/-- A variable of a catch clause. -/
def catchVariable : Parser Nat := do
  if ← check .underscore then leaf .underscore else expectName .identifier

/-- The variables of a catch clause between round brackets. -/
def catchVariables : Parser (List Child) := do
  if ← eat .lParen then
    if ← eat .rParen then
      return []
    else
      let first ← catchVariable
      let second ← after? .comma .catchVar2 catchVariable
      let _ ← expect .rParen
      return .labeled .catchVar1 first :: second
  else
    return []

/-- The clause that catches what a protected block throws. -/
def catchClause (bound : Nat) (parse : Nonterminal → Parser Nat) : Parser Nat := do
  let start := (← cursor).start
  let _ ← expect .kwCatch
  let caught ← catchVariables
  let body ← block bound parse
  finish .catchClause start (caught ++ [.labeled .catchBody body])

/-- A protected block and its catch clause. -/
def tryStatement (bound : Nat) (parse : Nonterminal → Parser Nat) : Parser Nat := do
  let start := (← cursor).start
  let _ ← expect .kwTry
  let body ← block bound parse
  let clause ← catchClause bound parse
  finish .tryCatchStatement start [.labeled .tryBody body, .labeled .catchClause clause]

/-- An assertion with the code that is thrown when it fails, inside or after
the round brackets. -/
def assertion (bound : Nat) (parse : Nonterminal → Parser Nat) : Parser Nat := do
  let start := (← cursor).start
  let _ ← expect .kwAssert
  let _ ← expect .lParen
  let test ← expression bound parse
  let inner ← after? .comma .excNo (expression bound parse)
  let _ ← expect .rParen
  let outer ← after? .kwThrow .excNo (expression bound parse)
  let _ ← expect .semi
  finish .assertStatement start (.labeled .condition test :: (inner ++ outer))

/-- What a return gives back, if anything. -/
def returnValue (bound : Nat) (parse : Nonterminal → Parser Nat) : Parser (List Child) := do
  if ← check .semi then
    return []
  else
    return [.labeled .body (← expression bound parse)]

/-- A return with an optional value. -/
def returnStatement (bound : Nat) (parse : Nonterminal → Parser Nat) : Parser Nat := do
  let start := (← cursor).start
  let _ ← next
  let value ← returnValue bound parse
  let _ ← expect .semi
  finish .returnStatement start value

/-- A loop with its condition before the body. -/
def whileStatement (bound : Nat) (parse : Nonterminal → Parser Nat) : Parser Nat := do
  let start := (← cursor).start
  let _ ← next
  let test ← condition bound parse
  let body ← block bound parse
  finish .whileStatement start [.labeled .condition test, .labeled .body body]

/-- A loop with its condition after the body. -/
def doWhileStatement (bound : Nat) (parse : Nonterminal → Parser Nat) : Parser Nat := do
  let start := (← cursor).start
  let _ ← next
  let body ← block bound parse
  let _ ← expect .kwWhile
  let test ← condition bound parse
  let _ ← expect .semi
  finish .doWhileStatement start [.labeled .body body, .labeled .condition test]

/-- A loop with a number of rounds. -/
def repeatStatement (bound : Nat) (parse : Nonterminal → Parser Nat) : Parser Nat := do
  let start := (← cursor).start
  let _ ← next
  let count ← condition bound parse
  let body ← block bound parse
  finish .repeatStatement start [.labeled .count count, .labeled .body body]

/-- A statement that throws a code. -/
def throwStatement (bound : Nat) (parse : Nonterminal → Parser Nat) : Parser Nat := do
  let start := (← cursor).start
  let _ ← next
  let value ← expression bound parse
  let _ ← expect .semi
  finish .throwStatement start [.labeled .excNo value]

/-- A statement that is a single word. -/
def wordStatement (kind : NodeKind) : Parser Nat := do
  let start := (← cursor).start
  let _ ← next
  let _ ← expect .semi
  finish kind start []

/-- The semicolon after an expression, which a match may lack. -/
def closeExpression (expr : Nat) : Parser Unit := do
  let nodes := (← get).arena.nodes
  if (nodes[expr]?).map (·.kind) == some .matchExpression then
    let _ ← eat .semi
  else
    let _ ← expect .semi

/-- An expression used as a statement. -/
def expressionStatement (bound : Nat) (parse : Nonterminal → Parser Nat) : Parser Nat := do
  let start := (← cursor).start
  let expr ← expression bound parse
  closeExpression expr
  finish .expressionStatement start [.labeled .expr expr]

/-- A declaration of local variables as a statement. -/
def variableStatement (bound : Nat) (parse : Nonterminal → Parser Nat) : Parser Nat := do
  let declaration ← localVariables bound parse
  let _ ← expect .semi
  return declaration

/-- A statement. -/
def statement (bound : Nat) (parse : Nonterminal → Parser Nat) : Parser Nat := do
  match (← cursor).current.kind with
  | .kwVal | .kwVar => variableStatement bound parse
  | .lBrace => block bound parse
  | .kwReturn => returnStatement bound parse
  | .kwIf => ifStatement bound parse
  | .kwWhile => whileStatement bound parse
  | .kwDo => doWhileStatement bound parse
  | .kwRepeat => repeatStatement bound parse
  | .kwTry => tryStatement bound parse
  | .kwThrow => throwStatement bound parse
  | .kwAssert => assertion bound parse
  | .kwBreak => wordStatement .breakStatement
  | .kwContinue => wordStatement .continueStatement
  | _ => expressionStatement bound parse

/-- The production of each nonterminal. -/
def production (bound : Nat) (parse : Nonterminal → Parser Nat) : Nonterminal → Parser Nat
  | .type => type bound parse
  | .nullableType => nullableType bound parse
  | .expression => expression bound parse
  | .binary level => binary bound parse level
  | .unary => unary bound parse
  | .variablePattern => variablePattern bound parse
  | .localVariables => localVariables bound parse
  | .block => block bound parse
  | .ifStatement => ifStatement bound parse
  | .statement => statement bound parse

/-- The parser of each nonterminal, for texts of fewer than `bound` tokens.
Every production reads a token before it uses a nonterminal, so the bound is
never met on such a text. -/
def parser : Nat → Nonterminal → Parser Nat
  | 0, _ => fail .expression
  | bound + 1, nonterminal => production bound (parser bound) nonterminal

end Grammar

end TolkAnalysis
