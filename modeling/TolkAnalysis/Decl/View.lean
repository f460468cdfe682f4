import TolkAnalysis.Decl.Basic

/-!
# Parts of a declaration

What a declaration is made of: parameters and body of a function, members of a
struct or an enum, the type and the value of a variable, the declaration that
it belongs to. Each part is read off the slots of the node; a part that a
declaration does not have is absent or an empty list.
-/

namespace TolkAnalysis

/-- How the body of a function is given. -/
inductive BodyKind where
  | common
  | asm
  | builtin
  | missing
deriving DecidableEq

namespace BodyKind

/-- The name of a kind of body. -/
def name : BodyKind → String
  | .common => "common"
  | .asm => "asm"
  | .builtin => "builtin"
  | .missing => "missing"

end BodyKind

namespace Decl

/-- The name of a parameter as it is written. -/
def parameterName (param : Node) : String :=
  ((param.child? .name).map (·.text)).getD ""

/-- The parameter is the receiver of a method. -/
def isSelfParameter (param : Node) : Bool := parameterName param == "self"

/-- The parameters of a function, in order. -/
def parameters (d : Decl) : List Node :=
  ((d.node.child? .parameters).map (·.childrenOfKind .parameterDeclaration)).getD []

/-- The parameters of a function, without `self` on demand. -/
def parametersFor (d : Decl) (skipSelf : Bool) : List Node :=
  d.parameters.filter fun p => !(skipSelf && isSelfParameter p)

/-- The declared type of what a function returns. -/
def returnType? (d : Decl) : Option Node := d.node.child? .returnType

/-- The entries of the list of type parameters after the name. -/
def typeParameters (d : Decl) : List Node :=
  ((d.node.child? .typeParameters).map (·.childrenOfKind .typeParameter)).getD []

/-- The names in the list of type parameters of a struct or a type alias. -/
def typeParameterNames (d : Decl) : List String :=
  if d.kind == .struct || d.kind == .typeAlias then
    (d.typeParameters.filterMap ofNode?).map (·.name)
  else []

/-- The body of a function. -/
def body? (d : Decl) : Option Node := d.node.child? .body

/-- How the body of a function is given. -/
def bodyKind (d : Decl) : BodyKind :=
  match d.body?.map Node.kind with
  | some .blockStatement => .common
  | some .asmBody => .asm
  | some .builtinSpecifier => .builtin
  | _ => .missing

/-- The type before the dot of a method. -/
def receiverType? (d : Decl) : Option Node :=
  (d.node.child? .receiver).bind (·.child? .receiverType)

/-- The type identifiers in the receiver of a method that name a type parameter,
by the answers of `resolve`, which is asked about each of them in order. -/
def receiverTypeParameters {m : Type → Type} [Monad m] (resolve : Node → m (Option Decl))
    (d : Decl) : m (List Node) :=
  match d.receiverType? with
  | some receiver =>
      (receiver.preorder.filter (·.kind == .typeIdentifier)).filterM fun n => do
        return (← resolve n).any (·.kind == .typeParameter)
  | none => pure []

/-- The node declares a method. -/
def isMethod (d : Decl) : Bool := d.node.kind == .methodDeclaration

/-- The node declares a get method. -/
def isGetMethod (d : Decl) : Bool := d.node.kind == .getMethodDeclaration

/-- The first parameter is `self`. -/
def hasSelf (d : Decl) : Bool := d.parameters.head?.any isSelfParameter

/-- A method that is called on a value. -/
def isInstanceMethod (d : Decl) : Bool := d.isMethod && d.hasSelf

/-- A method that is called on a type. -/
def isStaticMethod (d : Decl) : Bool := d.isMethod && !d.hasSelf

/-- The members of a struct. -/
def structFields (d : Decl) : List Decl :=
  match d.kind, d.node.child? .body with
  | .struct, some body => (body.childrenOfKind .structFieldDeclaration).filterMap ofNode?
  | _, _ => []

/-- The members of an enum. -/
def enumMembers (d : Decl) : List Decl :=
  match d.kind, d.node.child? .body with
  | .enum, some body => (body.childrenOfKind .enumMemberDeclaration).filterMap ofNode?
  | _, _ => []

/-- The literal that tags a struct. -/
def packPrefix? (d : Decl) : Option Node :=
  if d.kind == .struct then d.node.child? .packPrefix else none

/-- The written type of a field, a constant, a global variable, a parameter or a
local variable. -/
def writtenType? (d : Decl) : Option Node := d.node.child? .typeExpr

/-- The default of a field or a parameter. -/
def defaultValue? (d : Decl) : Option Node := d.node.child? .default

/-- The value of a constant or an enum member. -/
def value? (d : Decl) : Option Node := d.node.child? .value

/-- One of the words before a struct field. -/
def hasModifier (d : Decl) (word : String) : Bool :=
  (d.node.childrenIn .modifiers).any (·.text == word)

/-- The type that an alias stands for, or the mark of a builtin. -/
def underlyingType? (d : Decl) : Option Node := d.node.child? .underlyingType

/-- The alias declares a type known to the compiler. -/
def isBuiltin (d : Decl) : Bool := d.underlyingType?.any (·.kind == .builtinSpecifier)

/-- The written backing type of an enum. -/
def backedType? (d : Decl) : Option Node := d.node.child? .backedType

/-- The parameter may be changed by the function. -/
def isMutate (d : Decl) : Bool := (d.node.child? .mutate).isSome

/-- The default of a type parameter; one in a receiver has none. -/
def defaultType? (d : Decl) : Option Node :=
  if d.isImplicitTypeParameter then none else d.node.child? .default

/-- The function around a node, whose parameters are in scope there. -/
def enclosingFunction? (n : Node) : Option Decl :=
  (n.ancestors.find? (·.kind.isFunctionLike)).bind ofNode?

/-- The declaration that a field, an enum member, a parameter or a type
parameter belongs to. -/
def owner? (d : Decl) : Option Decl :=
  match d.kind with
  | .field => (d.node.ancestorOfKind? .structDeclaration).bind ofNode?
  | .enumMember => (d.node.ancestorOfKind? .enumDeclaration).bind ofNode?
  | .parameter => enclosingFunction? d.node
  | .typeParameter =>
      if d.isImplicitTypeParameter then
        (d.node.ancestorOfKind? .methodDeclaration).bind ofNode?
      else
        ((d.node.ancestorOfKind? .typeParameterList).bind (·.parent?)).bind ofNode?
  | _ => none

/-- The variable is assigned to and not declared. -/
def isRedef (d : Decl) : Bool := (d.node.child? .redef).isSome

/-- The declaration of local variables around a variable. -/
def localDeclaration? (d : Decl) : Option Node :=
  d.node.ancestorOfKind? .localVarsDeclaration

/-- The value that a declaration of local variables takes apart. -/
def assignedValue? (d : Decl) : Option Node :=
  d.localDeclaration?.bind (·.child? .assignedVal)

/-- The positions, innermost first, of a node in the patterns around it. -/
def patternPositions (n : Node) : List Nat :=
  match _h : n.parent? with
  | some p =>
      if p.kind == .tupleVarsDeclaration || p.kind == .tensorVarsDeclaration then
        match p.children.findIdx? (·.id == n.id) with
        | some i => i :: patternPositions p
        | none => []
      else []
  | none => []
termination_by n.tree.arena.size - n.id
decreasing_by
  have := Node.id_lt_of_parent? _h
  have hp := p.id_lt
  rw [this.2] at hp ⊢
  omega

/-- The positions of a local variable in the patterns around it, outermost
first. A variable that stands alone has none. -/
def destructuringPath (d : Decl) : List Nat := (patternPositions d.node).reverse

/-- The first variable of a catch clause, which holds the code. -/
def isFirstCatchVariable (d : Decl) : Bool := d.node.slot? == some .catchVar1

end Decl

end TolkAnalysis
