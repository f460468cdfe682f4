import TolkAnalysis.Resolution.Member
import TolkAnalysis.Resolution.Scope

/-!
# Resolving a name

The name of a declaration refers to that declaration, a name after a dot to a
member of what stands before the dot, and any other name to what its scopes and
files show. A node refers to the first declaration that fits.

An entry of an object literal without a value names a field and a variable at
once, so it refers to all declarations that fit.
-/

namespace TolkAnalysis

namespace Lookup

/-- What stands before the dot, when the element is the name after it. -/
def qualifier? (l : Lookup) : Option Node :=
  if l.element.slot? == some .field then
    match l.element.parent? with
    | some p => if p.kind == .dotAccess then p.child? .obj else none
    | none => none
  else none

/-- Offers the declarations that the element may refer to. -/
def search (l : Lookup) : Search Unit :=
  if l.element.span.isEmpty then pure ()
  else
    match Decl.declaredByName? l.element with
    | some d => l.offer .empty d
    | none =>
      match l.qualifier? with
      | some qualifier => l.searchQualified qualifier
      | none => l.searchUnqualified

end Lookup

namespace Resolution

/-- The declaration that a node refers to. -/
def first (w : Workspace) (n : Node) : Query (Option Decl) := do
  return (← Lookup.run (Lookup.search ⟨w, n, false⟩)).head?

/-- An entry of an object literal that gives only a name. -/
def isShorthand (n : Node) : Bool :=
  n.slot? == some .name && n.parent?.any fun p =>
    p.kind == .instanceArgument && (p.child? .value).isNone

/-- The declarations of a list, each once. -/
def distinct (ds : List Decl) : List Decl :=
  ds.foldl (fun found d => if found.any (·.isSame d) then found else found ++ [d]) []

/-- Every declaration that a node refers to. -/
def every (w : Workspace) (n : Node) : Query (List Decl) :=
  if isShorthand n then do
    return distinct (← Lookup.run (Lookup.search ⟨w, n, true⟩))
  else do
    return (← Query.reference n).toList

end Resolution

end TolkAnalysis
