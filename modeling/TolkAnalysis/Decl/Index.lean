import Std.Data.HashMap
import TolkAnalysis.Decl.Basic

/-!
# The index of a file

The declarations at the top of a file are grouped by category, in the order of
the text. They are found by category, or by category and name; for the latter
the index keeps the positions of a name in the group of the category. Both
look-ups list the declarations in the order of the text, so that of two
declarations with one name the earlier one is met first.
-/

namespace TolkAnalysis

/-- The category of a declaration at the top of a file. -/
inductive Category where
  | functions
  | getMethods
  | methods
  | globalVariables
  | constants
  | structs
  | enums
  | typeAliases
deriving DecidableEq, Hashable

namespace Category

/-- The name of a category. -/
def name : Category → String
  | .functions => "Funcs"
  | .getMethods => "GetMethods"
  | .methods => "Methods"
  | .globalVariables => "GlobalVariables"
  | .constants => "Constants"
  | .structs => "Structs"
  | .enums => "Enums"
  | .typeAliases => "TypeAliases"

/-- Every category. -/
def all : List Category :=
  [.functions, .getMethods, .methods, .globalVariables, .constants, .structs, .enums,
   .typeAliases]

/-- The category of the declarations of a kind of node. -/
def ofKind? : NodeKind → Option Category
  | .functionDeclaration => some .functions
  | .getMethodDeclaration => some .getMethods
  | .methodDeclaration => some .methods
  | .globalVarDeclaration => some .globalVariables
  | .constantDeclaration => some .constants
  | .structDeclaration => some .structs
  | .enumDeclaration => some .enums
  | .typeAliasDeclaration => some .typeAliases
  | _ => none

end Category

/-- The declarations at the top of a file by category. For each category and
name, the positions of the declarations with that name among them. -/
structure FileIndex where
  file : FileId
  groups : Std.HashMap Category (Array Decl)
  positions : Std.HashMap (Category × String) (Array Nat)

namespace FileIndex

/-- The index without declarations. -/
def empty (file : FileId) : FileIndex := ⟨file, ∅, ∅⟩

/-- The group of a category. -/
def group (index : FileIndex) (category : Category) : Array Decl :=
  index.groups.getD category #[]

/-- The positions of a name in the group of a category. -/
def positionsOf (index : FileIndex) (category : Category) (name : String) : Array Nat :=
  index.positions.getD (category, name) #[]

/-- The declarations of a category, in the order of the text. -/
def elements (index : FileIndex) (category : Category) : List Decl :=
  (index.group category).toList

/-- The declarations of a category with a given name, in the order of the text. -/
def byName (index : FileIndex) (category : Category) (name : String) : List Decl :=
  (index.positionsOf category name).toList.filterMap fun i => (index.group category)[i]?

/-- Adds a declaration after the others. -/
def add (index : FileIndex) (category : Category) (d : Decl) : FileIndex :=
  { index with
    groups := index.groups.insert category ((index.group category).push d)
    positions := index.positions.insert (category, d.name)
      ((index.positionsOf category d.name).push (index.group category).size) }

/-- Adds what a node declares at the top of a file. -/
def addNode (index : FileIndex) (n : Node) : FileIndex :=
  match Category.ofKind? n.kind, Decl.ofNode? n with
  | some category, some d => index.add category d
  | _, _ => index

/-- The index of a tree. -/
def ofTree (t : Tree) : FileIndex :=
  t.rootNode.children.foldl addNode (empty t.file)

/-- Offers the declarations of a list to `accept` until it refuses one. Says
whether none was refused, and holds the last state. -/
def offer {σ : Type} (accept : σ → Decl → Bool × σ) : List Decl → σ → Bool × σ
  | [], s => (true, s)
  | d :: ds, s =>
      match accept s d with
      | (true, s') => offer accept ds s'
      | (false, s') => (false, s')

/-- Offers the declarations of a category to `accept` until it refuses one. -/
def process {σ : Type} (index : FileIndex) (category : Category)
    (accept : σ → Decl → Bool × σ) (s : σ) : Bool × σ :=
  offer accept (index.elements category) s

/-- Number of declarations. -/
def size (index : FileIndex) : Nat :=
  index.groups.fold (fun count _ group => count + group.size) 0

/-- No declaration is listed. -/
def isEmpty (index : FileIndex) : Bool := index.size == 0

end FileIndex

end TolkAnalysis
