import TolkAnalysis.Grammar.Parser

/-!
# Type expressions

```text
type      := nullable ('|' nullable)*
nullable  := primary '?'*
primary   := name ('<' type,* '>')? | 'null'
           | '(' type,* ')' ('->' nullable)?
           | '[' type,* ']'
```

A list may end in a comma. A single type in round brackets is that type,
unless a comma follows it; before an arrow the brackets always list the
parameters of a function.

The grammar is open: a production is given the parsers of the nonterminals and
uses them only after it has read a token. `bound` is above the number of
tokens that are left.
-/

namespace TolkAnalysis

/-- The parts of the grammar that may contain themselves. -/
inductive Nonterminal where
  | type
  | nullableType
  | expression
  /-- An expression whose binary operators have at least the given level. -/
  | binary (level : Nat)
  | unary
  | variablePattern
  | localVariables
  | block
  | ifStatement
  | statement
deriving DecidableEq

namespace Grammar

open TolkAnalysis.Parser

/-- A list of type arguments between angle brackets. -/
def typeArguments (bound : Nat) (parse : Nonterminal → Parser Nat) : Parser Nat := do
  let start := (← cursor).start
  let _ ← expect .lt
  let (args, _) ← commaList .gt (Child.plain <$> parse .type) bound
  let _ ← expect .gt
  finish .instantiationTypeList start args

/-- What follows the closing bracket of a list of types. -/
def bracketedType (parse : Nonterminal → Parser Nat) (start : Nat) (close : Span)
    (elements : List Child) (trailing : Bool) : Parser Nat := do
  if ← eat .arrow then
    let params ← push .tensorType ⟨start, close.stop⟩ elements
    let result ← parse .nullableType
    finish .funCallableType start [.labeled .paramTypes params, .labeled .returnType result]
  else
    match elements, trailing with
    | [single], false => finish .parenthesizedType start [.labeled .inner single.node]
    | _, _ => finish .tensorType start elements

/-- A type without `?` and `|` around it. -/
def primaryType (bound : Nat) (parse : Nonterminal → Parser Nat) : Parser Nat := do
  let c ← cursor
  let start := c.start
  match c.current.kind with
  | .ident =>
      let name ← leaf .typeIdentifier
      if ← check .lt then
        let args ← typeArguments bound parse
        finish .instantiatedType start [.labeled .name name, .labeled .arguments args]
      else
        return name
  | .kwNull => leaf .typeIdentifier
  | .lParen =>
      let _ ← next
      let (elements, trailing) ← commaList .rParen (Child.plain <$> parse .type) bound
      let close ← expect .rParen
      bracketedType parse start close elements trailing
  | .lBracket =>
      let _ ← next
      let (elements, _) ← commaList .rBracket (Child.plain <$> parse .type) bound
      let _ ← expect .rBracket
      finish .tupleType start elements
  | _ => fail .type

/-- One `?` after a type. -/
def questionStep (start inner : Nat) : Parser (Option Nat) := do
  if ← eat .question then
    some <$> finish .nullableType start [.labeled .inner inner]
  else
    return none

/-- A type with any number of `?` after it. -/
def nullableType (bound : Nat) (parse : Nonterminal → Parser Nat) : Parser Nat := do
  let start := (← cursor).start
  let first ← primaryType bound parse
  iterate (questionStep start) bound first

/-- One more variant of a union. -/
def variant? (bound : Nat) (parse : Nonterminal → Parser Nat) : Parser (Option Child) := do
  if ← eat .pipe then
    (some ∘ Child.plain) <$> nullableType bound parse
  else
    return none

/-- A type: variants of a union, or a single one. -/
def type (bound : Nat) (parse : Nonterminal → Parser Nat) : Parser Nat := do
  let start := (← cursor).start
  let first ← nullableType bound parse
  if ← check .pipe then
    let others ← collect (variant? bound parse) bound
    finish .unionType start (.plain first :: others)
  else
    return first

end Grammar

end TolkAnalysis
