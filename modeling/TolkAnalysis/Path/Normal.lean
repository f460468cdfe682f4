/-!
# Normal paths

A path is a text of parts with slashes between them. Two paths that lead to the
same file by way of `.`, `..` and repeated slashes have one normal form, so a
file has one key however it is reached. Nothing is looked up: `..` takes away
the part before it, and stands at the beginning of a relative path if no part
is left. An absolute path does not go above its root.
-/

namespace TolkAnalysis

namespace Path

/-- The parts of a path between its slashes; a slash at either end has an empty
part beside it. -/
def parts : List Char → List (List Char)
  | [] => [[]]
  | c :: cs =>
      if c = '/' then [] :: parts cs
      else
        match parts cs with
        | p :: ps => (c :: p) :: ps
        | [] => [[c]]

/-- The part that goes up. -/
def parent : List Char := ['.', '.']

/-- Adds a part below the kept ones, which are listed from the last to the
first. -/
def keep (absolute : Bool) (kept : List (List Char)) (part : List Char) : List (List Char) :=
  if part = [] ∨ part = ['.'] then kept
  else if part = parent then
    match kept with
    | last :: rest =>
        if last ≠ parent then rest else if absolute then kept else parent :: kept
    | [] => if absolute then [] else [parent]
  else part :: kept

/-- The path begins at the root. -/
def isAbsolute (path : List Char) : Bool := path.head? == some '/'

/-- The parts of the normal form of a path. -/
def normalParts (path : List Char) : List (List Char) :=
  ((parts path).foldl (keep (isAbsolute path)) []).reverse

/-- The normal form of a path. -/
def normal (path : List Char) : List Char :=
  let joined := ['/'].intercalate (normalParts path)
  if isAbsolute path then '/' :: joined else joined

/-- The normal form of a path given as a text. -/
def normalize (path : String) : String := String.ofList (normal path.toList)

end Path

end TolkAnalysis
