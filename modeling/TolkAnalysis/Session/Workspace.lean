import Std.Data.HashMap
import TolkAnalysis.Decl.Index
import TolkAnalysis.Grammar.Parse
import TolkAnalysis.Path.Import
import TolkAnalysis.Session.Config
import TolkAnalysis.Session.Stubs

/-!
# Workspaces

A workspace holds the files of a session. A file is known by its normal path
and has a number, which it keeps as long as the path stays registered; the
number of a removed file is not given again. Loading a file reads its text,
lists its declarations and resolves its imports.

A name is looked for in the files that its own file can see, nearest first:
`Workspace.searchFiles` lists the file, its imports, what these import, and
last the files that are visible everywhere.
-/

namespace TolkAnalysis

/-- A file that has been read. -/
structure SourceFile where
  path : String
  tree : Tree
  index : FileIndex
  /-- The normal paths that the import directives lead to, in order. -/
  imports : List String
  errors : List ParseError

/-- The files of a session. -/
structure Workspace where
  config : SessionConfig
  files : Std.HashMap FileId SourceFile
  /-- The numbers of the files, in the order of registration. -/
  order : List FileId
  byPath : Std.HashMap String FileId
  /-- The file that declares the builtin types. -/
  stubs : Option FileId
  nextFile : FileId
  /-- Number of nodes in all trees read so far. -/
  loaded : Nat

/-- Why a request about files was refused. -/
inductive SessionError where
  | unknownFile (file : FileId)
  | unknownPath (path : String)
deriving DecidableEq

namespace SessionError

/-- The wording of a refusal. -/
def message : SessionError → String
  | .unknownFile file => "no file with id FileId(" ++ toString file ++ ") in this session"
  | .unknownPath path => "no file at path \x60" ++ path ++ "\x60 in this session"

end SessionError

namespace Workspace

/-- The workspace without files. -/
def empty (config : SessionConfig) : Workspace where
  config := config
  files := ∅
  order := []
  byPath := ∅
  stubs := none
  nextFile := 0
  loaded := 0

/-- The number of a path, which is registered first if it is not known. -/
def register (w : Workspace) (path : String) : FileId × Workspace :=
  match w.byPath[path]? with
  | some file => (file, w)
  | none =>
      (w.nextFile, { w with
        byPath := w.byPath.insert path w.nextFile
        order := w.order ++ [w.nextFile]
        nextFile := w.nextFile + 1 })

/-- The normal paths that the import directives of a tree lead to. -/
def importsOf (config : SessionConfig) (path : String) (t : Tree) : List String :=
  ((t.rootNode.childrenOfKind .importDirective).filterMap (·.child? .path)).filterMap fun n =>
    Path.resolveImport path (Text.withoutQuotes n.text) config.stdlibRoot

/-- Reads a text as the content of a path. -/
def load (w : Workspace) (path text : String) : FileId × Workspace :=
  let (file, w) := w.register path
  let output := parse file w.loaded text
  let source : SourceFile :=
    { path := path
      tree := output.tree
      index := FileIndex.ofTree output.tree
      imports := importsOf w.config path output.tree
      errors := output.errors }
  (file, { w with
    files := w.files.insert file source
    loaded := w.loaded + output.tree.size })

/-- The workspace of a new session. -/
def ofConfig (config : SessionConfig) : Workspace :=
  let w := empty config
  if config.loadStubs then
    let (file, w) := w.load Stubs.path Stubs.source
    { w with stubs := some file }
  else w

/-- Reads a text as the content of a path in any form. -/
def replace (w : Workspace) (path text : String) : FileId × Workspace :=
  w.load (Path.normalize path) text

/-- Forgets the file at a path in any form. -/
def remove (w : Workspace) (path : String) : Except SessionError Workspace :=
  let path := Path.normalize path
  match w.byPath[path]? with
  | some file =>
      .ok { w with
        byPath := w.byPath.erase path
        files := w.files.erase file
        order := w.order.filter (· != file) }
  | none => .error (.unknownPath path)

/-- A file by its number. -/
def file (w : Workspace) (file : FileId) : Except SessionError SourceFile :=
  match w.files[file]? with
  | some source => .ok source
  | none => .error (.unknownFile file)

/-- The number of the file at a path in any form. -/
def fileByPath? (w : Workspace) (path : String) : Option FileId :=
  w.byPath[Path.normalize path]?

/-- The tree of a file. -/
def tree? (w : Workspace) (file : FileId) : Option Tree := w.files[file]?.map (·.tree)

/-- The declarations of a file. -/
def index? (w : Workspace) (file : FileId) : Option FileIndex := w.files[file]?.map (·.index)

/-- The files that a file imports, in the order of its directives. An import that
leads to no file is left out. -/
def importedFiles (w : Workspace) (file : FileId) : List FileId :=
  match w.files[file]? with
  | some source => source.imports.filterMap fun path => w.byPath[path]?
  | none => []

/-- The files that are visible everywhere: the builtin types and the common file
of the standard library. -/
def stubFiles (w : Workspace) : List FileId :=
  let common := w.config.stdlibRoot.bind fun root =>
    w.byPath[Path.normalize (root ++ "/common.tolk")]?
  w.stubs.toList ++ common.toList

/-- The files of a queue and what they import, breadth first, each once and only
those that have not been seen. -/
def visit (imports : FileId → List FileId) : List FileId → List FileId → List FileId
  | _, [] => []
  | unseen, file :: queue =>
      if file ∈ unseen then
        file :: visit imports (unseen.erase file) (queue ++ imports file)
      else visit imports unseen queue
termination_by unseen queue => (unseen.length, queue.length)
decreasing_by
  · left
    rename_i h
    have := List.length_pos_of_mem h
    rw [List.length_erase_of_mem h]
    omega
  · right
    simp

/-- A list without those of its members that have been seen or that it lists
before. -/
def newOnes (seen : List FileId) : List FileId → List FileId
  | [] => []
  | file :: files =>
      if file ∈ seen then newOnes seen files else file :: newOnes (file :: seen) files

/-- The files in which a name written in a file is looked for, nearest first. -/
def searchFiles (w : Workspace) (file : FileId) : List FileId :=
  let reached := file ::
    visit w.importedFiles (w.order.filter (· != file)) (w.importedFiles file)
  reached ++ newOnes reached w.stubFiles

/-- Every file, those in which a name written in a file is looked for before the
others. -/
def filesFrom (w : Workspace) (file : FileId) : List FileId :=
  let near := w.searchFiles file
  near ++ newOnes near w.order

/-- Every method, those of the nearest files first. -/
def methodsFrom (w : Workspace) (file : FileId) : List Decl :=
  ((w.filesFrom file).filterMap w.index?).flatMap (·.elements .methods)

end Workspace

end TolkAnalysis
