import TolkAnalysis.Path.Normal
import TolkAnalysis.Text.Enclosed

/-!
# Imports

An import names a file by a path without or with its extension. A path that
begins with `@stdlib/` lies below the root of the standard library, if there is
one; no other path that begins with `@` leads anywhere. Any other path lies
below the directory of the importing file, or is absolute.
-/

namespace TolkAnalysis

namespace Path

/-- The extension of source files. -/
def extension : String := ".tolk"

/-- The directory of a file. A file at the root of all lies in `/`; a path
without a slash lies in the empty directory. -/
def directory (path : List Char) : List Char :=
  if path.contains '/' then
    match (path.reverse.dropWhile (· ≠ '/')).reverse.dropLast with
    | [] => ['/']
    | dir => dir
  else []

/-- A path below a directory. -/
def join (dir relative : List Char) : List Char :=
  if isAbsolute relative ∨ dir = [] then relative
  else (dir.reverse.dropWhile (· = '/')).reverse ++ '/' :: relative

/-- The normal path of a file below a directory, from its path without the
extension. -/
def fileBelow (dir relative : List Char) : String :=
  String.ofList (normal (join dir relative)) ++ extension

/-- The normal path of the file that an import in the file at `importer` leads
to. -/
def resolveImport (importer path : String) (stdlibRoot : Option String) : Option String :=
  let bare := (Text.dropTrailing? extension path).getD path
  match Text.dropLeading? "@stdlib/" bare with
  | some rest => stdlibRoot.map fun root => fileBelow root.toList rest.toList
  | none =>
      if bare.toList.head? = some '@' then none
      else some (fileBelow (directory importer.toList) bare.toList)

end Path

end TolkAnalysis
