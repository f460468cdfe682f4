import TolkAnalysis.References.Options
import TolkAnalysis.References.Scope
import TolkAnalysis.Resolution.Resolve

/-!
# Finding references

The uses of a declaration are the names that refer to it, in the order of the
files and of their texts. Only names that are spelled like the declaration are
asked about, and those `self` that may stand for a receiver; the name in the
declaration itself is no use.
-/

namespace TolkAnalysis

/-- A search for the uses of a declaration. -/
structure ReferenceSearch where
  workspace : Workspace
  target : Decl
  options : ReferenceOptions

namespace ReferenceSearch

/-- A name that is spelled as a use of the target may be. -/
def mayRefer (r : ReferenceSearch) (n : Node) : Bool :=
  n.kind.isReferenceLike &&
    if n.text == "self" then r.options.includeSelf
    else Text.withoutBackticks n.text == r.target.name

/-- The names below a scope that may be uses, in order. -/
def candidates (r : ReferenceSearch) (scope : Node) : List Node :=
  scope.preorder.filter r.mayRefer

/-- A declaration is the target, and the name is not its own. -/
def isTargetOf (r : ReferenceSearch) (n : Node) (d : Decl) : Bool :=
  d.isSame r.target && !d.nameNode?.any (· == n)

/-- A name refers to the target. -/
def refers (r : ReferenceSearch) (n : Node) : Query Bool := do
  return (← Resolution.every r.workspace n).any (r.isTargetOf n)

/-- Adds the uses in a list of names to those found before, until they are
enough. -/
def collect (r : ReferenceSearch) (found : Array Node) : List Node → Query (Array Node)
  | [] => return found
  | n :: ns => do
      if ← r.refers n then
        let found := found.push n
        if r.options.isFull found.size then return found
        r.collect found ns
      else r.collect found ns

/-- Adds the uses in scopes, one after another, until they are enough. -/
def collectAll (r : ReferenceSearch) (found : Array Node) :
    List Node → Query (Except SearchError (Array Node))
  | [] => return .ok found
  | scope :: scopes => do
      match r.options.interruption? r.workspace.config.referenceTimeout with
      | some reason => return .error reason
      | none =>
        if r.options.isFull found.size then return .ok found
        r.collectAll (← r.collect found (r.candidates scope)) scopes

/-- The nodes below which uses are looked for. -/
def scopes (r : ReferenceSearch) : List Node :=
  match r.target.useScope? with
  | some scope => [scope]
  | none =>
      let files := if r.options.sameFileOnly then [r.target.file] else r.workspace.order
      (files.filterMap r.workspace.tree?).map (·.rootNode)

/-- What is found before the search: the name of the declaration, if asked for. -/
def definition (r : ReferenceSearch) : List Node :=
  if r.options.includeDefinition then r.target.nameNode?.toList else []

/-- The uses of the target. -/
def run (r : ReferenceSearch) : Query (Except SearchError (List Node)) := do
  return (← r.collectAll r.definition.toArray r.scopes).map (·.toList)

end ReferenceSearch

end TolkAnalysis
