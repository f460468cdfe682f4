import TolkAnalysis.Grammar.Statement

/-!
# Declarations at the top of a file

A file is a list of declarations with optional semicolons between them. A
declaration that cannot be read costs what stands up to the next token that
begins a declaration; that text is covered by one node.

Annotations may stand before any declaration. Whatever follows the word `fun`
up to a dot, if it is a type, is the receiver of a method.
-/

namespace TolkAnalysis

namespace Grammar

open TolkAnalysis.Parser

/-- A child in a slot, when there is one. -/
def optional (slot : Field) (node : Option Nat) : List Child :=
  (node.map (Child.labeled slot)).toList

/-- The arguments of an annotation, if there are any. -/
def annotationArguments? (bound : Nat) (parse : Nonterminal → Parser Nat) :
    Parser (List Child) := do
  if ← check .lParen then
    return [.labeled .arguments (← argumentList bound parse)]
  else
    return []

/-- One annotation with optional arguments. -/
def annotationEntry (bound : Nat) (parse : Nonterminal → Parser Nat) : Parser Child := do
  let start := (← cursor).start
  let _ ← next
  let name ← expectName .identifier
  let args ← annotationArguments? bound parse
  Child.plain <$> finish .annotationEntry start (.labeled .name name :: args)

/-- The annotations before a declaration, if there are any. -/
def annotations? (bound : Nat) (parse : Nonterminal → Parser Nat) : Parser (Option Nat) := do
  let c ← cursor
  if c.isAt .atSign then
    let entries ← collect (whenAt (·.isAt .atSign) (annotationEntry bound parse)) bound
    some <$> finish .annotationList c.start entries
  else
    return none

/-- The path of an import. -/
def importPath : Parser Nat := do
  if ← check .stringLit then leaf .stringLiteral else fail .importPath

/-- An import of a file by its path. -/
def importDirective (start : Nat) : Parser Nat := do
  let _ ← expect .kwImport
  let path ← importPath
  let _ ← eat .semi
  finish .importDirective start [.labeled .path path]

/-- One entry of a list of type parameters, with an optional default. -/
def typeParameter (bound : Nat) (parse : Nonterminal → Parser Nat) : Parser Child := do
  let start := (← cursor).start
  let name ← expectName .identifier
  let default ← after? .eq .default (type bound parse)
  Child.plain <$> finish .typeParameter start (.labeled .name name :: default)

/-- The type parameters after a name, if there are any. -/
def typeParameters? (bound : Nat) (parse : Nonterminal → Parser Nat) : Parser (List Child) := do
  let c ← cursor
  if c.isAt .lt then
    let _ ← expect .lt
    let (params, _) ← commaList .gt (typeParameter bound parse) bound
    let _ ← expect .gt
    return [.labeled .typeParameters (← finish .typeParameterList c.start params)]
  else
    return []

/-- A parameter of a function. -/
def parameter (bound : Nat) (parse : Nonterminal → Parser Nat) : Parser Child := do
  let start := (← cursor).start
  let mutate ← mark? .mutate .mutate Cursor.isAtMutate
  let name ← expectName .identifier
  let typed ← after? .colon .typeExpr (type bound parse)
  let default ← after? .eq .default (expression bound parse)
  Child.plain <$> finish .parameterDeclaration start
    (mutate ++ .labeled .name name :: (typed ++ default))

/-- The parameters of a function between round brackets. -/
def parameterList (bound : Nat) (parse : Nonterminal → Parser Nat) : Parser Nat := do
  let start := (← cursor).start
  let _ ← expect .lParen
  let (params, _) ← commaList .rParen (parameter bound parse) bound
  let _ ← expect .rParen
  finish .parameterList start params

/-- The receiver of a method with the dot after it, if there is one. The node
ends before the dot. -/
def receiver? (bound : Nat) (parse : Nonterminal → Parser Nat) : Parser (Option Nat) := do
  let start := (← cursor).start
  match ← attempt (type bound parse) (·.isAt .dot) with
  | some type =>
      let stop := (← cursor).previousStop
      let _ ← next
      some <$> push .methodReceiver ⟨start, stop⟩ [.labeled .receiverType type]
  | none => return none

/-- A body written in assembly. -/
def asmBody (bound : Nat) : Parser Nat := do
  let start := (← cursor).start
  let _ ← next
  let strings ← collect (whenAt (·.isAt .stringLit) (Child.plain <$> leaf .stringLiteral)) bound
  let body ← finish .asmBody start strings
  let _ ← eat .semi
  return body

/-- The body of a function: a block, assembly, or the mark of a builtin. -/
def functionBody (bound : Nat) (parse : Nonterminal → Parser Nat) : Parser Nat := do
  if ← check .lBrace then
    block bound parse
  else if ← checkWord "asm" then
    asmBody bound
  else if ← checkWord "builtin" then
    let body ← leaf .builtinSpecifier
    let _ ← eat .semi
    return body
  else
    fail .functionBody

/-- What a function with the given receiver is. -/
def functionKind (isGetMethod : Bool) (receiver : Option Nat) : NodeKind :=
  if isGetMethod then .getMethodDeclaration
  else if receiver.isSome then .methodDeclaration
  else .functionDeclaration

/-- The receiver of a function that may have one. -/
def functionReceiver? (bound : Nat) (parse : Nonterminal → Parser Nat) (isGetMethod : Bool) :
    Parser (Option Nat) :=
  if isGetMethod then pure none else receiver? bound parse

/-- A function from its name on. `before` holds the children before the name. -/
def functionFromName (bound : Nat) (parse : Nonterminal → Parser Nat) (start : Nat)
    (kind : NodeKind) (before : List Child) : Parser Nat := do
  let name ← expectName .identifier
  let typeParams ← typeParameters? bound parse
  let params ← parameterList bound parse
  let result ← after? .colon .returnType (type bound parse)
  let body ← functionBody bound parse
  finish kind start
    (before ++ .labeled .name name :: (typeParams ++ .labeled .parameters params
      :: (result ++ [.labeled .body body])))

/-- A function, a method or a get method. -/
def function (bound : Nat) (parse : Nonterminal → Parser Nat) (start : Nat)
    (annotations : Option Nat) (isGetMethod : Bool) : Parser Nat := do
  let _ ← expect .kwFun
  let receiver ← functionReceiver? bound parse isGetMethod
  functionFromName bound parse start (functionKind isGetMethod receiver)
    (optional .annotations annotations ++ optional .receiver receiver)

/-- The number in a pack prefix. -/
def packNumber : Parser Nat := do
  if ← check .number then leaf .numberLiteral else fail .packPrefix

/-- The declared pack prefix of a struct, if there is one. -/
def packPrefix? : Parser (List Child) := do
  if ← eat .lParen then
    let number ← packNumber
    let _ ← expect .rParen
    return [.labeled .packPrefix number]
  else
    return []

/-- The next token restricts the struct member after it. -/
def isAtModifier (c : Cursor) : Bool :=
  (c.isAtWord "readonly" || c.isAtWord "private") && c.kindAt 1 == .ident

/-- A word that restricts a struct member. -/
def fieldModifier : Parser Child := Child.labeled .modifiers <$> leaf .fieldModifier

/-- A member of a struct. -/
def structField (bound : Nat) (parse : Nonterminal → Parser Nat) : Parser Child := do
  let start := (← cursor).start
  let modifiers ← collect (whenAt isAtModifier fieldModifier) bound
  let name ← expectName .identifier
  let _ ← expect .colon
  let type ← type bound parse
  let default ← after? .eq .default (expression bound parse)
  Child.plain <$> finish .structFieldDeclaration start
    (modifiers ++ .labeled .name name :: .labeled .typeExpr type :: default)

/-- A member of a declaration and the separators after it. -/
def separated (bound : Nat) (member : Parser Child) : Parser Child := do
  let child ← member
  skipSeparators bound
  return child

/-- Members between braces, with any separators between them. -/
def members (bound : Nat) (kind : NodeKind) (member : Parser Child) : Parser Nat := do
  let start := (← cursor).start
  let _ ← expect .lBrace
  let children ← collect (whenAt Cursor.isInside (separated bound member)) bound
  let _ ← expect .rBrace
  finish kind start children

/-- A struct. -/
def struct (bound : Nat) (parse : Nonterminal → Parser Nat) (start : Nat)
    (annotations : Option Nat) : Parser Nat := do
  let _ ← expect .kwStruct
  let packing ← packPrefix?
  let name ← expectName .identifier
  let typeParams ← typeParameters? bound parse
  let body ← members bound .structBody (structField bound parse)
  finish .structDeclaration start
    (optional .annotations annotations ++ packing
      ++ .labeled .name name :: (typeParams ++ [.labeled .body body]))

/-- A member of an enum, with an optional value. -/
def enumMember (bound : Nat) (parse : Nonterminal → Parser Nat) : Parser Child := do
  let start := (← cursor).start
  let name ← expectName .identifier
  let value ← after? .eq .value (expression bound parse)
  Child.plain <$> finish .enumMemberDeclaration start (.labeled .name name :: value)

/-- An enum, with an optional backing type. -/
def enum (bound : Nat) (parse : Nonterminal → Parser Nat) (start : Nat)
    (annotations : Option Nat) : Parser Nat := do
  let _ ← expect .kwEnum
  let name ← expectName .identifier
  let backed ← after? .colon .backedType (type bound parse)
  let body ← members bound .enumBody (enumMember bound parse)
  finish .enumDeclaration start
    (optional .annotations annotations
      ++ .labeled .name name :: (backed ++ [.labeled .body body]))

/-- The type that an alias stands for, or the mark of a builtin. -/
def underlyingType (bound : Nat) (parse : Nonterminal → Parser Nat) : Parser Nat := do
  let c ← cursor
  if c.isAtWord "builtin" && (c.kindAt 1 == .semi || c.kindAt 1 == .endOfFile) then
    leaf .builtinSpecifier
  else
    type bound parse

/-- A type alias. The word `builtin` at the end of the declaration says that
the type is known to the compiler. -/
def typeAlias (bound : Nat) (parse : Nonterminal → Parser Nat) (start : Nat)
    (annotations : Option Nat) : Parser Nat := do
  let _ ← expect .kwType
  let name ← expectName .identifier
  let typeParams ← typeParameters? bound parse
  let _ ← expect .eq
  let underlying ← underlyingType bound parse
  let _ ← eat .semi
  finish .typeAliasDeclaration start
    (optional .annotations annotations
      ++ .labeled .name name :: (typeParams ++ [.labeled .underlyingType underlying]))

/-- A constant. -/
def constant (bound : Nat) (parse : Nonterminal → Parser Nat) (start : Nat)
    (annotations : Option Nat) : Parser Nat := do
  let _ ← expect .kwConst
  let name ← expectName .identifier
  let typed ← after? .colon .typeExpr (type bound parse)
  let _ ← expect .eq
  let value ← expression bound parse
  let _ ← eat .semi
  finish .constantDeclaration start
    (optional .annotations annotations
      ++ .labeled .name name :: (typed ++ [.labeled .value value]))

/-- A global variable. -/
def globalVariable (bound : Nat) (parse : Nonterminal → Parser Nat) (start : Nat)
    (annotations : Option Nat) : Parser Nat := do
  let _ ← expect .kwGlobal
  let name ← expectName .identifier
  let _ ← expect .colon
  let type ← type bound parse
  let _ ← eat .semi
  finish .globalVarDeclaration start
    (optional .annotations annotations
      ++ [.labeled .name name, .labeled .typeExpr type])

/-- A declaration at the top of a file. -/
def item (bound : Nat) (parse : Nonterminal → Parser Nat) : Parser Nat := do
  let start := (← cursor).start
  let annotations ← annotations? bound parse
  let c ← cursor
  match c.current.kind with
  | .kwImport => importDirective start
  | .kwFun => function bound parse start annotations false
  | .kwStruct => struct bound parse start annotations
  | .kwEnum => enum bound parse start annotations
  | .kwType => typeAlias bound parse start annotations
  | .kwConst => constant bound parse start annotations
  | .kwGlobal => globalVariable bound parse start annotations
  | _ =>
      if c.isAtWord "get" && c.kindAt 1 == .kwFun then
        let _ ← next
        function bound parse start annotations true
      else
        fail .declaration

/-- A declaration. One that cannot be read is covered and skipped. -/
def itemOrSkipped (bound : Nat) (parse : Nonterminal → Parser Nat) : Parser Nat := do
  let earlier := (← get).checkpoint
  tryCatch (item bound parse) fun error => recover bound error earlier TokenKind.startsItem

/-- One declaration of a file. A stray semicolon is read and adds nothing. -/
def fileItem (bound : Nat) (parse : Nonterminal → Parser Nat) : Parser (List Child) := do
  if ← eat .semi then
    return []
  else
    return [.plain (← itemOrSkipped bound parse)]

/-- The declarations of a file, up to its end. -/
def fileItems (bound : Nat) (parse : Nonterminal → Parser Nat) : Parser (List Child) := do
  let items ← collect (whenAt (!·.isAtEnd) (fileItem bound parse)) bound
  return items.flatten

end Grammar

end TolkAnalysis
