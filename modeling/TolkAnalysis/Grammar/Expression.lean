import TolkAnalysis.Grammar.TypeExpr

/-!
# Expressions

From the loosest to the tightest: assignments, which group to the right; the
ternary operator; `??`; ten levels of binary operators, which group to the
left; prefix operators; casts and type tests; calls, member accesses, `!` and
type arguments. What stands between angle brackets after an expression is read
as type arguments only if a call or a member access follows.
-/

namespace TolkAnalysis

namespace Grammar

open TolkAnalysis.Parser

/-- A binary operator before the parser: its level and its number of tokens. -/
structure BinaryOperator where
  level : Nat
  tokens : Nat
deriving DecidableEq

/-- The binary operator that comes next, if one does. -/
def binaryOperator? (c : Cursor) : Option BinaryOperator :=
  match c.current.kind with
  | .pipePipe => some ⟨1, 1⟩
  | .ampAmp => some ⟨2, 1⟩
  | .pipe => some ⟨3, 1⟩
  | .caret => some ⟨4, 1⟩
  | .amp => some ⟨5, 1⟩
  | .eqEq | .notEq => some ⟨6, 1⟩
  | .lt | .ltEq | .spaceship => some ⟨7, 1⟩
  | .gt =>
      if c.isAtShiftRightAssign then none
      else if c.isAtShiftRight then some ⟨8, 2⟩
      else if c.isAtGreaterEqual then some ⟨7, 2⟩
      else some ⟨7, 1⟩
  | .shl => some ⟨8, 1⟩
  | .plus | .minus => some ⟨9, 1⟩
  | .star | .slash | .percent => some ⟨10, 1⟩
  | _ => none

/-- The number of tokens of the compound assignment operator that comes next,
if one does. -/
def assignmentOperator? (c : Cursor) : Option Nat :=
  if c.isAtShiftRightAssign then some 3
  else
    match c.current.kind with
    | .plusAssign | .minusAssign | .starAssign | .slashAssign | .percentAssign | .ampAssign
    | .pipeAssign | .caretAssign | .shlAssign => some 1
    | _ => none

/-- A binary operation. -/
def binaryNode (start left operator right : Nat) : Parser Nat :=
  finish .binaryOperator start
    [.labeled .left left, .labeled .operatorName operator, .labeled .right right]

/-- One argument of a call. -/
def callArgument (parse : Nonterminal → Parser Nat) : Parser Child := do
  let start := (← cursor).start
  let mutate ← mark? .mutate .mutate Cursor.isAtMutate
  let expr ← parse .expression
  Child.plain <$> finish .callArgument start (mutate ++ [.labeled .expr expr])

/-- The arguments of a call in their round brackets. -/
def argumentList (bound : Nat) (parse : Nonterminal → Parser Nat) : Parser Nat := do
  let start := (← cursor).start
  let _ ← expect .lParen
  let (args, _) ← commaList .rParen (callArgument parse) bound
  let _ ← expect .rParen
  finish .argumentList start args

/-- One entry of an object literal. -/
def instanceArgument (parse : Nonterminal → Parser Nat) : Parser Child := do
  let start := (← cursor).start
  let name ← expectName .identifier
  let value ← after? .colon .value (parse .expression)
  Child.plain <$> finish .instanceArgument start (.labeled .name name :: value)

/-- The entries of an object literal between braces. -/
def objectLiteralBody (bound : Nat) (parse : Nonterminal → Parser Nat) : Parser Nat := do
  let start := (← cursor).start
  let _ ← expect .lBrace
  let (args, _) ← commaList .rBrace (instanceArgument parse) bound
  let _ ← expect .rBrace
  finish .objectLiteralBody start args

/-- The rest of an object literal that begins at `start` with an optional type. -/
def objectLiteral (bound : Nat) (parse : Nonterminal → Parser Nat) (start : Nat)
    (type : Option Nat) : Parser Nat := do
  let body ← objectLiteralBody bound parse
  finish .objectLiteral start
    ((type.map (Child.labeled .typeExpr)).toList ++ [.labeled .arguments body])

/-- A name, or an object literal that begins with its type. -/
def nameOrObjectLiteral (bound : Nat) (parse : Nonterminal → Parser Nat) : Parser Nat := do
  let c ← cursor
  match c.kindAt 1 with
  | .lBrace =>
      let type ← leaf .typeIdentifier
      objectLiteral bound parse c.start (some type)
  | .lt =>
      match ← attempt (type bound parse) (·.isAt .lBrace) with
      | some type => objectLiteral bound parse c.start (some type)
      | none => leaf .identifier
  | _ => leaf .identifier

/-- The pattern of a match arm: `else`, a type, or an expression. -/
def armPattern (bound : Nat) (parse : Nonterminal → Parser Nat) : Parser Nat := do
  if ← check .kwElse then
    leaf .matchElse
  else
    match ← attempt (type bound parse) (·.isAt .fatArrow) with
    | some type => return type
    | none => parse .expression

/-- What a match arm leads to: a block or an expression. -/
def armBody (parse : Nonterminal → Parser Nat) : Parser Nat := do
  if ← check .lBrace then parse .block else parse .expression

/-- One arm of a match and the separators after it. -/
def matchArm (bound : Nat) (parse : Nonterminal → Parser Nat) : Parser Child := do
  let start := (← cursor).start
  let pattern ← armPattern bound parse
  let _ ← expect .fatArrow
  let body ← armBody parse
  let arm ← finish .matchArm start [.labeled .pattern pattern, .labeled .body body]
  skipSeparators bound
  return .labeled .arms arm

/-- The subject of a match, which may declare variables. -/
def matchSubject (parse : Nonterminal → Parser Nat) : Parser Nat := do
  let c ← cursor
  if c.isAt .kwVal || c.isAt .kwVar then parse .localVariables else parse .expression

/-- A match over a subject. -/
def matchExpression (bound : Nat) (parse : Nonterminal → Parser Nat) : Parser Nat := do
  let start := (← cursor).start
  let _ ← expect .kwMatch
  let _ ← expect .lParen
  let subject ← matchSubject parse
  let _ ← expect .rParen
  let _ ← expect .lBrace
  let arms ← collect (whenAt Cursor.isInside (matchArm bound parse)) bound
  let _ ← expect .rBrace
  finish .matchExpression start (.labeled .expr subject :: arms)

/-- An expression without operators around it. -/
def primary (bound : Nat) (parse : Nonterminal → Parser Nat) : Parser Nat := do
  let c ← cursor
  let start := c.start
  match c.current.kind with
  | .number => leaf .numberLiteral
  | .stringLit => leaf .stringLiteral
  | .kwTrue | .kwFalse => leaf .booleanLiteral
  | .kwNull => leaf .nullLiteral
  | .underscore => leaf .underscore
  | .ident => nameOrObjectLiteral bound parse
  | .lBrace => objectLiteral bound parse start none
  | .lParen =>
      let _ ← next
      let (elements, trailing) ← commaList .rParen (Child.plain <$> parse .expression) bound
      let _ ← expect .rParen
      match elements, trailing with
      | [single], false => finish .parenthesizedExpression start [.labeled .inner single.node]
      | _, _ => finish .tensorExpression start elements
  | .lBracket =>
      let _ ← next
      let (elements, _) ← commaList .rBracket (Child.plain <$> parse .expression) bound
      let _ ← expect .rBracket
      finish .typedTuple start elements
  | .kwMatch => matchExpression bound parse
  | _ => fail .expression

/-- The name or the number of a member after a dot. -/
def memberName : Parser Nat := do
  match (← cursor).current.kind with
  | .ident => leaf .identifier
  | .number => leaf .numericIndex
  | _ => fail .memberName

/-- One call, member access, `!` or list of type arguments after `expr`. -/
def postfixStep (bound : Nat) (parse : Nonterminal → Parser Nat) (start expr : Nat) :
    Parser (Option Nat) := do
  let c ← cursor
  match c.current.kind with
  | .lParen =>
      let args ← argumentList bound parse
      some <$> finish .functionCall start [.labeled .callee expr, .labeled .arguments args]
  | .dot =>
      let _ ← next
      let member ← memberName
      some <$> finish .dotAccess start [.labeled .obj expr, .labeled .field member]
  | .bang =>
      if c.kindAt 1 == .kwIs then
        return none
      else
        let _ ← next
        some <$> finish .notNullOperator start [.labeled .inner expr]
  | .lt =>
      match ← attempt (typeArguments bound parse) (fun c => c.isAt .lParen || c.isAt .dot) with
      | some args =>
          some <$> finish .genericInstantiation start
            [.labeled .expr expr, .labeled .arguments args]
      | none => return none
  | _ => return none

/-- An expression with calls and accesses after it. -/
def postfixed (bound : Nat) (parse : Nonterminal → Parser Nat) : Parser Nat := do
  let start := (← cursor).start
  let first ← primary bound parse
  iterate (postfixStep bound parse start) bound first

/-- One cast or type test after `expr`. -/
def castStep (bound : Nat) (parse : Nonterminal → Parser Nat) (start expr : Nat) :
    Parser (Option Nat) := do
  if ← eat .kwAs then
    let target ← type bound parse
    some <$> finish .castAsOperator start [.labeled .expr expr, .labeled .castedTo target]
  else
    let c ← cursor
    let negated := c.isAt .bang && c.kindAt 1 == .kwIs
    if c.isAt .kwIs || negated then
      let op ← operator (if negated then 2 else 1)
      let rhs ← type bound parse
      some <$> finish .isTypeOperator start
        [.labeled .expr expr, .labeled .operatorName op, .labeled .rhsType rhs]
    else
      return none

/-- An expression with casts and type tests after it. -/
def cast (bound : Nat) (parse : Nonterminal → Parser Nat) : Parser Nat := do
  let start := (← cursor).start
  let first ← postfixed bound parse
  iterate (castStep bound parse start) bound first

/-- An expression with prefix operators before it. -/
def unary (bound : Nat) (parse : Nonterminal → Parser Nat) : Parser Nat := do
  let c ← cursor
  match c.current.kind with
  | .bang | .minus | .plus | .tilde =>
      let op ← operator 1
      let argument ← parse .unary
      finish .unaryOperator c.start [.labeled .operatorName op, .labeled .argument argument]
  | .kwLazy =>
      let _ ← next
      let argument ← parse .unary
      finish .lazyExpression c.start [.labeled .argument argument]
  | _ => cast bound parse

/-- One binary operator of at least a given level and what stands right of it. -/
def binaryStep (parse : Nonterminal → Parser Nat) (level start left : Nat) :
    Parser (Option Nat) := do
  match binaryOperator? (← cursor) with
  | some op =>
      if op.level < level then
        return none
      else
        let operator ← operator op.tokens
        let right ← parse (.binary (op.level + 1))
        some <$> binaryNode start left operator right
  | none => return none

/-- An expression of binary operators of at least a given level. -/
def binary (bound : Nat) (parse : Nonterminal → Parser Nat) (level : Nat) : Parser Nat := do
  let start := (← cursor).start
  let first ← unary bound parse
  iterate (binaryStep parse level start) bound first

/-- One `??` and what stands right of it. -/
def nullishStep (bound : Nat) (parse : Nonterminal → Parser Nat) (start left : Nat) :
    Parser (Option Nat) := do
  if ← check .questionQuestion then
    let operator ← operator 1
    let right ← binary bound parse 1
    some <$> binaryNode start left operator right
  else
    return none

/-- An expression of operators `??`. -/
def nullish (bound : Nat) (parse : Nonterminal → Parser Nat) : Parser Nat := do
  let start := (← cursor).start
  let first ← binary bound parse 1
  iterate (nullishStep bound parse start) bound first

/-- A conditional expression. -/
def ternary (bound : Nat) (parse : Nonterminal → Parser Nat) : Parser Nat := do
  let start := (← cursor).start
  let condition ← nullish bound parse
  if ← eat .question then
    let consequence ← parse .expression
    let _ ← expect .colon
    let alternative ← parse .expression
    finish .ternaryOperator start
      [.labeled .condition condition, .labeled .consequence consequence,
       .labeled .alternative alternative]
  else
    return condition

/-- An expression: an assignment or anything tighter. -/
def expression (bound : Nat) (parse : Nonterminal → Parser Nat) : Parser Nat := do
  let start := (← cursor).start
  let left ← ternary bound parse
  if ← eat .eq then
    let right ← parse .expression
    finish .assignment start [.labeled .left left, .labeled .right right]
  else
    match assignmentOperator? (← cursor) with
    | some count =>
        let operator ← operator count
        let right ← parse .expression
        finish .setAssignment start
          [.labeled .left left, .labeled .operatorName operator, .labeled .right right]
    | none => return left

end Grammar

end TolkAnalysis
