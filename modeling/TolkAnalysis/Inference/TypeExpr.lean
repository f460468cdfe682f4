import TolkAnalysis.Inference.Decl
import TolkAnalysis.Ty.Substitution

/-!
# Types of type expressions

A type expression denotes a type. A name denotes a primitive type or what it
refers to, and `self` denotes the receiver of the method around it. Applying a
generic struct or alias puts the arguments in place at once, so the fields of
the applied type are those of the arguments; an argument that is left out is
the default of its type parameter.
-/

namespace TolkAnalysis

namespace Inference

/-- The type that a name denotes. -/
def namedType (i : Inference) (n : Node) : Attempt Ty := do
  let name := n.text
  if name == "self" then
    let function ← .ofOption (Decl.enclosingFunction? n)
    i.infer (← .ofOption function.receiverType?)
  else
    match Ty.ofName? name with
    | some primitive => return primitive
    | none => i.declType (← i.resolve n)

/-- The union that a type expression denotes. Every variant must have a type. -/
def unionType (i : Inference) (n : Node) : Attempt Ty := do
  return Ty.unionOf (← n.children.mapM i.infer)

/-- The arguments for the type parameters of a declaration: those given, then
the defaults. A name without either is left out. -/
def boundParams (names : List String) (args params : List Ty) : List (String × Ty) :=
  names.zipIdx.filterMap fun (name, position) =>
    match args[position]? with
    | some arg => some (name, arg)
    | none =>
        match params[position]? with
        | some (.typeParam _ (some default)) => some (name, default)
        | _ => none

/-- The type of a declaration applied to arguments. -/
def instantiate (d : Decl) (base : Ty) (args : List Ty) : Ty :=
  let inner := base.unwrapInstantiation
  let params := match base with
    | .instantiation _ params => params
    | _ => []
  let body :=
    if d.kind == .struct || d.kind == .typeAlias then
      inner.substitute (Substitution.ofList (boundParams d.typeParameterNames args params))
    else inner
  .instantiation body args

/-- The types of the children of a list, or none if there is no list. -/
def listedTypes (i : Inference) (list : Option Node) : Attempt (List Ty) :=
  match list with
  | some l => i.inferChildren l
  | none => return []

/-- The applied type that a type expression denotes. -/
def instantiatedType (i : Inference) (n : Node) : Attempt Ty := do
  let name ← .ofOption (n.child? .name)
  let base ← i.infer name
  let args ← i.listedTypes (n.child? .arguments)
  match ← (i.resolve name).answer? with
  | some d => return instantiate d base args
  | none => return .instantiation base.unwrapInstantiation args

/-- The type of functions that a type expression denotes. The list of parameters
is written as a tensor. -/
def callableType (i : Inference) (n : Node) : Attempt Ty := do
  let list ← .ofOption (n.child? .paramTypes)
  let result ← i.inferChild n .returnType
  match ← i.infer list, list.kind with
  | .tensor params, .tensorType => return .function params result
  | single, _ => return .function [single] result

end Inference

end TolkAnalysis
