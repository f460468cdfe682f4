import TolkAnalysis.Inference.Basic
import TolkAnalysis.Tree.Walk
import TolkAnalysis.Ty.Join

/-!
# Types of declarations

The type of a declaration is the type of the names that refer to it. A generic
struct or alias comes applied to its own type parameters. A function without a
written result type returns the join of the values that its body returns, and
nothing if it returns none.
-/

namespace TolkAnalysis

namespace Inference

/-- The name of a declared type, with the declaration. -/
def nominalOf (d : Decl) : Nominal := ⟨d.name, some d⟩

/-- A type applied to the type parameters of its declaration, if it has any. -/
def applied (i : Inference) (t : Ty) (params : List Node) : Attempt Ty := do
  if params.isEmpty then return t
  return .instantiation t (← params.mapM i.inferOrUnknown)

/-- The type of a field of a struct. -/
def fieldType (i : Inference) (d : Decl) : Attempt Ty := do
  i.infer (← .ofOption d.writtenType?)

/-- The type that a struct declares. -/
def structType (i : Inference) (d : Decl) : Attempt Ty := do
  let fields ← d.structFields.mapM fun f => (i.fieldType f).getD .unknown
  i.applied (.struct (nominalOf d) fields) d.typeParameters

/-- The type that an alias declares. -/
def aliasType (i : Inference) (d : Decl) : Attempt Ty := do
  if d.isBuiltin then
    return (Ty.ofName? d.name).getD (.builtin (nominalOf d))
  let inner ← i.infer (← .ofOption d.underlyingType?)
  i.applied (.alias (nominalOf d) inner) d.typeParameters

/-- The type of a parameter: the written one or, for `self`, the receiver. -/
def parameterType (i : Inference) (param : Node) : Attempt Ty := do
  match param.child? .typeExpr with
  | some written => i.infer written
  | none =>
      if Decl.isSelfParameter param then
        let owner ← .ofOption (Decl.enclosingFunction? param)
        i.infer (← .ofOption owner.receiverType?)
      else failure

/-- Adds the value of a return statement to those found before. -/
def visitReturn (found : Array Node) (n : Node) : Step × Array Node :=
  if n.kind.isFunctionLike then (.skipChildren, found)
  else if n.kind == .returnStatement then
    (.skipChildren, match n.child? .body with
      | some value => found.push value
      | none => found)
  else (.goOn, found)

/-- The values that the return statements in a body return, in order. -/
def returnedValues (body : Node) : List Node := (body.walk visitReturn #[]).2.toList

/-- The type of what a body returns. -/
def returnedType (i : Inference) (body : Node) : Attempt Ty := do
  let values := returnedValues body
  if values.isEmpty then return .void
  return (Ty.joinList? (← i.inferSome values)).getD .unknown

/-- The type of the result of a function: the written one, or that of what its body
returns. -/
def functionResult (i : Inference) (d : Decl) : Attempt Ty :=
  match d.returnType?, d.bodyKind, d.body? with
  | some written, _, _ => i.inferOrUnknown written
  | none, .common, some body => i.returnedType body
  | none, _, _ => return .void

/-- The type of a function. -/
def functionType (i : Inference) (d : Decl) : Attempt Ty := do
  let params ← d.parameters.mapM fun p => (i.parameterType p).getD .unknown
  return .function params (← i.functionResult d)

/-- The part of a type at the end of a path through the patterns below one. At
each step the type must have as many elements as the pattern. -/
def destructure : List Nat → Node → Ty → Option Ty
  | [], _, t => some t
  | index :: path, pattern, t => do
      let elements ← t.elements?
      let parts := pattern.children
      if elements.length ≠ parts.length then none
      let element ← elements[index]?
      let part ← parts[index]?
      destructure path part element

/-- The type of a local variable: the written one, or the part of the assigned
value that its place in the pattern selects. -/
def localType (i : Inference) (d : Decl) : Attempt Ty := do
  match d.writtenType? with
  | some hint => i.infer hint
  | none =>
      let value ← i.infer (← .ofOption d.assignedValue?)
      let pattern ← .ofOption (d.localDeclaration?.bind (·.child? .lhs))
      .ofOption (destructure d.destructuringPath pattern value)

/-- The default of a type parameter. -/
def defaultType (i : Inference) (d : Decl) : Attempt (Option Ty) :=
  match d.defaultType? with
  | some written => (i.infer written).answer?
  | none => return none

/-- The type of a declaration. -/
def declType (i : Inference) (d : Decl) : Attempt Ty :=
  match d.kind with
  | .struct => i.structType d
  | .typeAlias => i.aliasType d
  | .enum => return .enum (nominalOf d)
  | .enumMember => do return .enum (nominalOf (← .ofOption d.owner?))
  | .constant =>
      match d.writtenType? with
      | some written => i.infer written
      | none => do i.infer (← .ofOption d.value?)
  | .globalVariable => i.fieldType d
  | .field => i.fieldType d
  | .parameter => i.parameterType d.node
  | .typeParameter => do return .typeParam (nominalOf d) (← i.defaultType d)
  | .localVariable => i.localType d
  | .catchVariable => return if d.isFirstCatchVariable then .int else .unknown
  | .function | .getMethod | .instanceMethod | .staticMethod => i.functionType d

/-- The builtin type of a name, as the nearest file declares it. -/
def builtinType (i : Inference) (n : Node) (name : String) : Attempt Ty := do
  let indexes := (i.workspace.searchFiles n.file).filterMap i.workspace.index?
  match indexes.findSome? fun index => (index.byName .typeAliases name).head? with
  | some d => (i.declType d).getD (.builtin ⟨name, none⟩)
  | none => return .builtin ⟨name, none⟩

end Inference

end TolkAnalysis
