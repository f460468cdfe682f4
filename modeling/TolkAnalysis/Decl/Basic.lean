import TolkAnalysis.Tree.Basic

/-!
# Declarations

A declaration is a node together with what it declares. Most declarations are
nodes of a kind of their own. Two are names: a variable of a catch clause, and
a type parameter that a method introduces by writing it in its receiver.

Two handles stand for the same declaration if their nodes agree in file, kind,
start and name. This holds also between handles that were reached in different
ways.
-/

namespace TolkAnalysis

/-- What a declaration declares. -/
inductive DeclKind where
  | function
  | getMethod
  | instanceMethod
  | staticMethod
  | struct
  | field
  | typeAlias
  | enum
  | enumMember
  | constant
  | globalVariable
  | parameter
  | typeParameter
  | localVariable
  | catchVariable
deriving DecidableEq, Inhabited

namespace DeclKind

/-- How messages call a kind of declaration. -/
def describe : DeclKind → String
  | .function => "function"
  | .getMethod => "get method"
  | .instanceMethod => "instance method"
  | .staticMethod => "static method"
  | .struct => "struct"
  | .field => "field"
  | .typeAlias => "type alias"
  | .enum => "enum"
  | .enumMember => "enum member"
  | .constant => "constant"
  | .globalVariable => "global variable"
  | .parameter => "parameter"
  | .typeParameter => "type parameter"
  | .localVariable => "local variable"
  | .catchVariable => "catch variable"

/-- A function, a get method or a method. -/
def isFunctionLike : DeclKind → Bool
  | .function | .getMethod | .instanceMethod | .staticMethod => true
  | _ => false

/-- The declaration introduces a type. -/
def isType : DeclKind → Bool
  | .struct | .typeAlias | .enum | .typeParameter => true
  | _ => false

/-- The declaration is visible in a function only. -/
def isLocal : DeclKind → Bool
  | .parameter | .typeParameter | .localVariable | .catchVariable => true
  | _ => false

end DeclKind

/-- A node and what it declares. -/
structure Decl where
  kind : DeclKind
  node : Node

namespace Decl

/-- Equal handles have equal kinds and equal nodes. -/
instance : BEq Decl := ⟨fun a b => a.kind == b.kind && a.node == b.node⟩

/-- The node is a variable of a catch clause. -/
def isCatchVariable (n : Node) : Bool :=
  n.slot? == some .catchVar1 || n.slot? == some .catchVar2

/-- The first parameter of a function is named `self`. -/
def firstParameterIsSelf (function : Node) : Bool :=
  match (function.child? .parameters).bind (·.children.head?) |>.bind (·.child? .name) with
  | some name => name.text == "self"
  | none => false

/-- What a node declares, if it declares anything. -/
def kindOf? (n : Node) : Option DeclKind :=
  match n.kind with
  | .functionDeclaration => some .function
  | .getMethodDeclaration => some .getMethod
  | .methodDeclaration =>
      some (if firstParameterIsSelf n then .instanceMethod else .staticMethod)
  | .structDeclaration => some .struct
  | .structFieldDeclaration => some .field
  | .typeAliasDeclaration => some .typeAlias
  | .enumDeclaration => some .enum
  | .enumMemberDeclaration => some .enumMember
  | .constantDeclaration => some .constant
  | .globalVarDeclaration => some .globalVariable
  | .parameterDeclaration => some .parameter
  | .typeParameter => some .typeParameter
  | .varDeclaration => some .localVariable
  | .identifier => if isCatchVariable n then some .catchVariable else none
  | _ => none

/-- The declaration that a node is. -/
def ofNode? (n : Node) : Option Decl := (kindOf? n).map (⟨·, n⟩)

/-- The type parameter that a name in the receiver of a method introduces. -/
def implicitTypeParameter (n : Node) : Decl := ⟨.typeParameter, n⟩

/-- The declaration whose name is written at a node. A variable marked `redef`
is assigned to and not declared. -/
def declaredByName? (n : Node) : Option Decl :=
  if n.kind == .identifier && isCatchVariable n then ofNode? n
  else if n.slot? == some .name then
    match n.parent? with
    | some p =>
        if p.kind == .varDeclaration && (p.child? .redef).isSome then none else ofNode? p
    | none => none
  else none

/-- The file of a declaration. -/
def file (d : Decl) : FileId := d.node.file

/-- The declaration is a type parameter written in the receiver of a method and
not in a list of type parameters. -/
def isImplicitTypeParameter (d : Decl) : Bool :=
  d.kind == .typeParameter && d.node.kind == .typeIdentifier

/-- The node at which the declared name is written. -/
def nameNode? (d : Decl) : Option Node :=
  if d.kind == .catchVariable || d.isImplicitTypeParameter then some d.node
  else d.node.child? .name

/-- The declared name, without backticks. -/
def name (d : Decl) : String :=
  Text.withoutBackticks ((d.nameNode?.map (·.text)).getD "")

/-- Both handles stand for one declaration. -/
def isSame (a b : Decl) : Bool :=
  a.file == b.file && a.node.kind == b.node.kind
    && a.node.span.start == b.node.span.start && a.name == b.name

/-- A declaration is written as its kind, its name and its node. -/
def label (d : Decl) : String :=
  d.kind.describe ++ " \x60" ++ d.name ++ "\x60 @" ++ d.node.label

end Decl

end TolkAnalysis
