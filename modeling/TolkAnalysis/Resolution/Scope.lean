import TolkAnalysis.Resolution.Search

/-!
# Names in scopes

A name that stands for itself is looked for in the scopes around it, from the
inside out, and then in the files that its own file can see. A block shows the
variables declared in it before the statement that the name is in; a function
shows its parameters, its type parameters and those of its receiver. Where only
types are meant, variables and functions are passed over.

Nothing around a receiver is in its scope, and a type name in a receiver that is
found nowhere is a type parameter which it introduces itself.
-/

namespace TolkAnalysis

namespace Lookup

/-- The variables that a pattern declares, from left to right. One marked
`redef` is assigned to and not declared. -/
def patternVariables (pattern : Node) : List Decl :=
  match pattern.kind with
  | .varDeclaration =>
      if (pattern.child? .redef).isSome then [] else (Decl.ofNode? pattern).toList
  | .tupleVarsDeclaration | .tensorVarsDeclaration =>
      pattern.children.attach.flatMap fun c => patternVariables c.1
  | _ => []
termination_by pattern.id
decreasing_by exact Node.id_lt_of_mem_children c.2

/-- The variables that a declaration of local variables declares. -/
def declaredVariables (declaration : Node) : List Decl :=
  ((declaration.child? .lhs).map patternVariables).getD []

/-- The variables that the statements of a block declare before one of them, or
all if there is none to stop at. -/
def blockVariables (block : Node) (before : Option Node) : List Decl :=
  let statements := block.children.takeWhile fun n => !before.any (· == n)
  (statements.filter (·.kind == .localVarsDeclaration)).flatMap declaredVariables

/-- The variables of a catch clause. -/
def catchVariables (clause : Node) : List Decl :=
  ((clause.child? .catchVar1).toList ++ (clause.child? .catchVar2).toList).filterMap Decl.ofNode?

/-- The variables that a scope shows to a node in its child `inner`. -/
def scopeVariables (scope : Node) (inner : Option Node) : List Decl :=
  match scope.kind with
  | .blockStatement => blockVariables scope inner
  | .catchClause => catchVariables scope
  | .matchExpression =>
      if inner.bind (·.slot?) == some .expr then []
      else
        match scope.child? .expr with
        | some subject =>
            if subject.kind == .localVarsDeclaration then declaredVariables subject else []
        | none => []
  | .doWhileStatement =>
      if inner.bind (·.slot?) == some .condition then
        ((scope.child? .body).map fun body => blockVariables body none).getD []
      else []
  | _ => []

/-- The entries of the list of type parameters of a declaration. -/
def typeParametersOf (owner : Node) : List Decl :=
  match owner.child? .typeParameters with
  | some list => (list.childrenOfKind .typeParameter).filterMap Decl.ofNode?
  | none => []

/-- Offers the parameters of a function. Where only types are meant there is none
but `self`. -/
def searchParameters (l : Lookup) (s : LookupState) (function : Node) : Search Unit :=
  if !l.forTypes || l.element.text == "self" then
    let params := ((function.child? .parameters).map
      (·.childrenOfKind .parameterDeclaration)).getD []
    l.offerAll s (params.filterMap Decl.ofNode?)
  else pure ()

/-- Offers the type parameters that the receiver of a function introduces. -/
def searchReceiverParameters (l : Lookup) (s : LookupState) (function : Node) : Search Unit :=
  match Decl.ofNode? function with
  | some d => do
      let params ← d.receiverTypeParameters l.resolve
      l.offerAll s (params.map Decl.implicitTypeParameter)
  | none => pure ()

/-- Offers the parameters, the type parameters and the type parameters of the
receiver of a function. -/
def searchFunction (l : Lookup) (s : LookupState) (function : Node) : Search Unit := do
  l.searchParameters s function
  l.offerAll s (typeParametersOf function)
  l.searchReceiverParameters s function

/-- Offers what a scope shows to a node in its child `inner`. -/
def searchScope (l : Lookup) (s : LookupState) (scope : Node) (inner : Option Node) :
    Search Unit :=
  if scope.kind.isFunctionLike then
    l.searchFunction s scope
  else if scope.kind == .structDeclaration || scope.kind == .typeAliasDeclaration then
    l.offerAll s (typeParametersOf scope)
  else if !l.forTypes then
    l.offerAll s (scopeVariables scope inner)
  else pure ()

/-- Offers what the scopes of a list show, each to a node in the one before it. -/
def searchOutward (l : Lookup) (s : LookupState) : Option Node → List Node → Search Unit
  | _, [] => pure ()
  | inner, scope :: scopes => do
      l.searchScope s scope inner
      l.searchOutward s (some scope) scopes

/-- Offers what the scopes around the element show. -/
def searchScopes (l : Lookup) (s : LookupState) : Search Unit :=
  l.searchOutward s none (l.element :: l.element.ancestors)

/-- Offers the fields of the struct that an object literal makes, when the
element is the name of one of its entries. -/
def searchLiteral (l : Lookup) (s : LookupState) : Search Unit :=
  if l.element.slot? == some .name then
    match l.element.ancestorOfKind? .objectLiteral with
    | some literal => do
        match ← l.infer literal with
        | some t => l.offerAll s ((t.baseType.anchor?.map (·.structFields)).getD [])
        | none => pure ()
    | none => pure ()
  else pure ()

/-- The categories of declarations that a name may stand for. Before a dot, a
name that is both a function and a type is the type. -/
def categories (l : Lookup) (s : LookupState) : List Category :=
  let values : List Category :=
    if l.forTypes then []
    else (if s.isDotQualifier then [] else [.functions, .getMethods]) ++
      [.globalVariables, .constants]
  values ++ [.structs, .enums, .typeAliases]

/-- Offers the declarations of an index, category by category. -/
def searchIndex (l : Lookup) (s : LookupState) (index : FileIndex) : Search Unit :=
  (l.categories s).forM fun category => l.offerAll s (index.elements category)

/-- Offers the declarations at the top of the files that the element's file can
see. -/
def searchFiles (l : Lookup) (s : LookupState) : Search Unit :=
  ((l.workspace.searchFiles l.element.file).filterMap l.workspace.index?).forM (l.searchIndex s)

/-- The kind of the parent of the element. -/
def parentKind? (l : Lookup) : Option NodeKind := l.element.parent?.map (·.kind)

/-- The state of a look-up of a name that does not stand after a dot. -/
def unqualifiedState (l : Lookup) : LookupState :=
  let named := match sizedTypeFamily? l.element.text with
    | some family => LookupState.empty.withValue LookupState.searchNameKey family
    | none => LookupState.empty
  named.withValue LookupState.dotQualifierKey
    (if l.parentKind? == some .dotAccess then "true" else "false")

/-- The element stands in the receiver of a method. -/
def isInReceiver (l : Lookup) : Bool := (l.element.ancestorOfKind? .methodReceiver).isSome

/-- Offers what an entry of an object literal may name. -/
def searchEntry (l : Lookup) (s : LookupState) : Search Unit :=
  if l.parentKind? == some .instanceArgument then l.searchLiteral s else pure ()

/-- Offers what the scopes around the element show, unless it stands in a
receiver. -/
def searchAround (l : Lookup) (s : LookupState) : Search Unit :=
  if l.isInReceiver then pure () else l.searchScopes s

/-- Offers a type name in a receiver as the type parameter that it introduces. -/
def searchIntroduced (l : Lookup) (s : LookupState) : Search Unit :=
  if l.isInReceiver && l.element.kind == .typeIdentifier then
    l.offer s (Decl.implicitTypeParameter l.element)
  else pure ()

/-- Looks for a name that does not stand after a dot. -/
def searchUnqualified (l : Lookup) : Search Unit :=
  if l.element.text == "" || l.element.text == "_" then pure ()
  else do
    let s := l.unqualifiedState
    l.searchEntry s
    l.searchAround s
    l.searchFiles s
    l.searchIntroduced s

end Lookup

end TolkAnalysis
