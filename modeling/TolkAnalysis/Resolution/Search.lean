import TolkAnalysis.Query.Basic
import TolkAnalysis.Resolution.State
import TolkAnalysis.Session.Workspace

/-!
# Looking for a name

A look-up offers declarations in the order in which they are visible from a
name, nearest first, and ends at the first that fits. A declaration fits if it
is the very node that is looked up or if it has the name that is looked for. In
a look-up of all declarations the search goes on after one that fits.

The types whose width is a part of their name are declared once for all widths,
so a name of that form is looked for under the name of its family.
-/

namespace TolkAnalysis

/-- One look-up of a node. -/
structure Lookup where
  workspace : Workspace
  element : Node
  /-- Go on after a declaration that fits. -/
  all : Bool

/-- A search that may end before all declarations have been offered, and that
collects those that fit. -/
abbrev Search := ExceptT Unit (StateT (Array Decl) Query)

namespace Lookup

/-- The name that is written. -/
def name (l : Lookup) : String := Text.withoutBackticks l.element.text

/-- The node stands where only types are meant. The pattern of a match arm may
also be a value. -/
def forTypes (l : Lookup) : Bool :=
  l.element.kind == .typeIdentifier && !l.element.parent?.any (·.kind == .matchArm)

/-- The name that is looked for. -/
def wanted (l : Lookup) (s : LookupState) : String := s.searchName?.getD l.name

/-- A declaration fits the look-up of a name. -/
def fits (l : Lookup) (wanted : String) (d : Decl) : Bool :=
  d.node == l.element || d.name == wanted

/-- Offers a declaration to the look-up of a name. -/
def offerNamed (l : Lookup) (wanted : String) (d : Decl) : Search Unit :=
  if l.fits wanted d then do
    modify (·.push d)
    if l.all then pure () else throw ()
  else pure ()

/-- Offers a declaration. -/
def offer (l : Lookup) (s : LookupState) (d : Decl) : Search Unit :=
  l.offerNamed (l.wanted s) d

/-- Offers declarations one after another. -/
def offerAll (l : Lookup) (s : LookupState) (ds : List Decl) : Search Unit :=
  let wanted := l.wanted s
  ds.forM (l.offerNamed wanted)

/-- What a node refers to, as a step of a search. -/
def resolve (_ : Lookup) (n : Node) : Search (Option Decl) :=
  liftM (Query.reference n)

/-- The type of a node, as a step of a search. -/
def infer (_ : Lookup) (n : Node) : Search (Option Ty) :=
  liftM (Query.typeOf n)

/-- Runs a search and answers the declarations that fit, in the order in which
they were offered. -/
def run (search : Search Unit) : Query (List Decl) := do
  let (_, found) ← (search.run).run #[]
  return found.toList

end Lookup

/-- The families of types with a width: how their names begin, and the name of
the family. An earlier entry wins over a later one that fits as well. -/
def sizedTypeFamilies : List (String × String) :=
  [("varuint", "varuintN"), ("varint", "varintN"), ("uint", "uintN"), ("int", "intN"),
   ("bits", "bitsN"), ("bytes", "bytesN")]

/-- The family of a name that ends in a width. -/
def sizedTypeFamily? (name : String) : Option String :=
  sizedTypeFamilies.findSome? fun (lead, family) =>
    match Text.dropLeading? lead name with
    | some digits =>
        if digits ≠ "" ∧ digits.toList.all Char.isDigit then some family else none
    | none => none

end TolkAnalysis
