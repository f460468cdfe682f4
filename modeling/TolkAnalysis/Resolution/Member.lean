import TolkAnalysis.Resolution.Search
import TolkAnalysis.Ty.Union

/-!
# Names after a dot

A name after a dot is a member of what stands before it. If that names a type,
the static methods of the type come first. Otherwise the type of the object
counts, without its option: the fields and the methods of the type, then those
of the type that it is an alias or an instantiation of.

A method belongs to a type if its receiver does: a type parameter accepts every
type, a name the types of that name, an applied generic type its instantiations,
and an optional type the unions with null.
-/

namespace TolkAnalysis

/-- Where members of a type are found. -/
inductive MemberSource where
  /-- Among the fields of a struct. -/
  | fields (anchor : Option Decl)
  /-- Among the methods whose receiver accepts a type. -/
  | methods (type : Ty)

namespace Ty

/-- The places where the members of a type are found, in order. A typed cell has
the methods of a cell as well. -/
def memberSources (t : Ty) : List MemberSource :=
  match t with
  | .struct n _ => [.fields n.anchor, .methods t]
  | .alias _ inner => .methods t :: inner.memberSources
  | .instantiation inner _ =>
      let cell := Ty.builtin ⟨"cell", none⟩
      let asCell :=
        if inner.unwrapInstantiation.name == "Cell" then
          [MemberSource.methods cell, .methods (nullable cell)]
        else []
      .methods t :: (asCell ++ inner.unwrapInstantiation.memberSources)
  | _ => [.methods t]
termination_by sizeOf t
decreasing_by
  · simp only [alias.sizeOf_spec]
    omega
  · have := sizeOf_unwrapInstantiation_le inner
    simp only [instantiation.sizeOf_spec]
    omega

end Ty

namespace Lookup

/-- A receiver is a name that is a type parameter. -/
def isReceiverTypeParameter (l : Lookup) (receiver : Node) : Search Bool := do
  return (← l.resolve receiver).any (·.kind == .typeParameter)

/-- The type `s` for a union of `s` and null. -/
def nullableInner? : Ty → Option Ty
  | .union variants => Ty.nullableInner? variants
  | _ => none

/-- A receiver accepts a type. -/
def receiverMatches (l : Lookup) (t : Ty) (receiver : Node) : Search Bool := do
  match receiver.kind with
  | .typeIdentifier =>
      if ← l.isReceiverTypeParameter receiver then return true
      return t.name == receiver.text
  | .instantiatedType =>
      match ← l.infer receiver with
      | some (.instantiation declared _) =>
          match t with
          | .instantiation inner _ => return inner.name == declared.name
          | _ => return false
      | _ => return false
  | .nullableType =>
      match _h : receiver.child? .inner with
      | some inner =>
          match nullableInner? t with
          | some t' => l.receiverMatches t' inner
          | none => return false
      | none => return false
  | _ => return false
termination_by receiver.id
decreasing_by exact Node.id_lt_of_child? _h

/-- The methods of a kind that the element's file can see, nearest first, with
their receivers. -/
def methods (l : Lookup) (kind : DeclKind) : List (Decl × Node) :=
  ((l.workspace.methodsFrom l.element.file).filter (·.kind == kind)).filterMap fun d =>
    d.receiverType?.map fun receiver => (d, receiver)

/-- Offers the methods that are called on values of a type. -/
def searchInstanceMethods (l : Lookup) (s : LookupState) (t : Ty) : Search Unit :=
  (l.methods .instanceMethod).forM fun (method, receiver) => do
    if ← l.receiverMatches t receiver then l.offer s method else pure ()

/-- A static method with the given receiver is called on the type of a name. -/
def isReceiverNamed (l : Lookup) (typeName : String) (receiver : Node) : Search Bool := do
  match receiver.kind with
  | .typeIdentifier =>
      if receiver.text == typeName then return true
      l.isReceiverTypeParameter receiver
  | .instantiatedType => return (receiver.child? .name).any (·.text == typeName)
  | _ => return false

/-- Offers the methods that are called on the type of a name. -/
def searchStaticMethods (l : Lookup) (s : LookupState) (typeName : String) : Search Unit :=
  (l.methods .staticMethod).forM fun (method, receiver) => do
    if ← l.isReceiverNamed typeName receiver then l.offer s method else pure ()

/-- Offers the members found in one place. -/
def searchSource (l : Lookup) (s : LookupState) : MemberSource → Search Unit
  | .fields anchor => l.offerAll s ((anchor.map (·.structFields)).getD [])
  | .methods t => l.searchInstanceMethods s t

/-- Offers the members of a type. -/
def searchType (l : Lookup) (s : LookupState) (t : Ty) : Search Unit :=
  t.memberSources.forM (l.searchSource s)

/-- What the qualifier refers to, if it is a name. -/
def qualifierDecl (l : Lookup) (qualifier : Node) : Search (Option Decl) :=
  if qualifier.kind.isReferenceLike then l.resolve qualifier else pure none

/-- Offers the static methods of the type that the qualifier names. -/
def searchNamedType (l : Lookup) (s : LookupState) (named : Option Decl) : Search Unit :=
  match named with
  | some d =>
      if d.kind == .struct || d.kind == .typeAlias then l.searchStaticMethods s d.name
      else pure ()
  | none => pure ()

/-- Offers the members and the static methods of an enum that is named by the
qualifier. -/
def searchNamedEnum (l : Lookup) (s : LookupState) (named : Option Decl) (t : Ty) :
    Search Unit :=
  match named, t.unwrapAlias with
  | some d, .enum n => do
      l.offerAll s ((n.anchor.map (·.enumMembers)).getD [])
      l.searchStaticMethods s d.name
  | _, _ => pure ()

/-- Offers what the type of the qualifier has. -/
def searchQualifierType (l : Lookup) (s : LookupState) (qualifier : Node) (named : Option Decl)
    (t : Ty) : Search Unit :=
  if qualifier.kind == .genericInstantiation then
    l.searchStaticMethods s t.unwrapInstantiation.name
  else do
    l.searchNamedEnum s named t
    l.searchType s t

/-- Looks for a name after a dot, where `qualifier` stands before the dot. -/
def searchQualified (l : Lookup) (qualifier : Node) : Search Unit := do
  let s := LookupState.empty
  let named ← l.qualifierDecl qualifier
  l.searchNamedType s named
  match ← l.infer qualifier with
  | some t => l.searchQualifierType s qualifier named t.unwrapOption
  | none => pure ()

end Lookup

end TolkAnalysis
