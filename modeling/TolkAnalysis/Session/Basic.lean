import TolkAnalysis.References.Search
import TolkAnalysis.Session.Oracle
import TolkAnalysis.Size.Estimate

/-!
# Sessions

A session is a workspace with the answers remembered so far. A query fills the
memo tables and changes nothing else. A change of a file forgets every answer,
since any of them may depend on the file; a change that is refused leaves the
session as it was.
-/

namespace TolkAnalysis

/-- Files, and what has been found out about them. -/
structure Session where
  workspace : Workspace
  caches : Caches

namespace Session

/-- A new session. -/
def ofConfig (config : SessionConfig) : Session := ⟨.ofConfig config, .empty⟩

/-! ### Changes -/

/-- Forgets every answer. -/
def clear (s : Session) : Session := { s with caches := s.caches.clear }

/-- Reads a text as the content of a path. A known path keeps its number. -/
def replace (s : Session) (path text : String) : FileId × Session :=
  let (file, w) := s.workspace.replace path text
  (file, ⟨w, s.caches.clear⟩)

/-- Forgets the file at a path. -/
def remove (s : Session) (path : String) : Except SessionError Session := do
  return ⟨← s.workspace.remove path, s.caches.clear⟩

/-! ### Queries -/

/-- The node at an offset of a file. -/
def nodeAt (s : Session) (file : FileId) (offset : Nat) : Except SessionError (Option Node) := do
  return (← s.workspace.file file).tree.nodeAt? offset

/-- Makes a query and remembers the answers that it needs. -/
def ask {α : Type} (query : Workspace → Query α) : StateM Session α := fun s =>
  let (answer, caches) := (query s.workspace).run s.workspace.oracle s.caches
  (answer, { s with caches := caches })

/-- The declaration that a node refers to. -/
def resolve (n : Node) : StateM Session (Option Decl) := ask fun _ => .reference n

/-- Every declaration that a node refers to. -/
def resolveAll (n : Node) : StateM Session (List Decl) := ask fun w => Resolution.every w n

/-- The type of a node. -/
def inferType (n : Node) : StateM Session (Option Ty) := ask fun _ => .typeOf n

/-- The type of a declaration, which is computed anew each time. -/
def declType (d : Decl) : StateM Session (Option Ty) :=
  ask fun w => (Inference.declType ⟨w⟩ d).run

/-- The size of a value of the type of a node. -/
def estimateSize (n : Node) : StateM Session (Option CellSize) := do
  return (← inferType n).map (·.size)

/-- The uses of a declaration. -/
def references (target : Decl) (options : ReferenceOptions) :
    StateM Session (Except SearchError (List Node)) :=
  ask fun w => ReferenceSearch.run ⟨w, target, options⟩

end Session

end TolkAnalysis
