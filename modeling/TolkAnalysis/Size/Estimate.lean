import Std.Data.HashMap
import TolkAnalysis.Size.CellSize
import TolkAnalysis.Size.Opcode
import TolkAnalysis.Ty.Substitution

/-!
# Estimates of sizes

The size of a type is found from the sizes of its parts. A struct counts its
declared tag, unless the union around it has counted it. A union of some type
and null counts one bit for the choice; so does a union of two variants without
declared tags; any other union counts the tags of its variants.

An estimator remembers the sizes it has found, by the shown name of the type and
by whether tags count. An instantiation is sized by its inner type with the
arguments put in place, which need not be a part of it, so the number of steps
down is bounded and there is no answer beyond the bound. A type without type
parameters takes no more steps down than it has parts. Since a type may have
many more parts than different ones, they are counted only if
`Sizing.usualDepth` does not do.
-/

namespace TolkAnalysis

/-- Whether the declared tag of a struct counts. -/
inductive TagMode where
  | counted
  /-- The union around the struct has counted the tag. -/
  | alreadyCounted
deriving DecidableEq, Hashable

/-- The sizes found so far. -/
abbrev SizeMemo := Std.HashMap (String × TagMode) CellSize

/-- A size found with the help of the sizes found so far, if there are steps
down enough to find it. -/
abbrev Sizing := StateT SizeMemo Option

namespace Sizing

/-- The types of the members of an applied generic struct or alias: the inner
type with its declared type parameters bound to the arguments. -/
def instantiatedBody (inner : Ty) (nominal : Nominal) (args : List Ty) : Ty :=
  let params := (nominal.anchor.map (·.typeParameterNames)).getD []
  inner.substitute (Substitution.ofList (params.zip args))

/-- The size of a type that the compiler knows by name alone. -/
def builtinSize (name : String) : CellSize :=
  if name = "address" then .between 2 267 0 0
  else if name = "cell" then .between 0 0 1 1
  else if name = "builder" ∨ name = "slice" then .unpredictable
  else .bits 0

/-- The declared tag of a struct, if it counts. -/
def tagSize (t : Ty) (mode : TagMode) : CellSize :=
  match mode with
  | .counted => ((t.structOpcode?).map fun o => .bits o.length).getD (.bits 0)
  | .alreadyCounted => .bits 0

/-- A choice between a value of the given size and null. -/
def optionSize : CellSize → CellSize
  | .range e => (CellSize.bits 1).sum (.between e.minBits e.maxBits 0 e.maxRefs)
  | .invalid => .invalid

/-- One of several sizes, if there are any. -/
def anyOf? : List CellSize → Option CellSize
  | [] => none
  | s :: ss => some (ss.foldl CellSize.minmax s)

/-- The sizes of types, each found after those before it. -/
def sizes (estimate : Ty → TagMode → Sizing CellSize) (mode : TagMode) :
    List Ty → Sizing (List CellSize)
  | [] => pure []
  | t :: ts => do
      let s ← estimate t mode
      return s :: (← sizes estimate mode ts)

/-- The size of values of some types one after another. -/
def sumAll (estimate : Ty → TagMode → Sizing CellSize) (types : List Ty) : Sizing CellSize := do
  return (← sizes estimate .counted types).foldl CellSize.sum (.bits 0)

/-- The size of a union with tags. -/
def taggedSize (estimate : Ty → TagMode → Sizing CellSize) (variants : List Ty) :
    Sizing CellSize := do
  match Opcode.ofVariants? variants with
  | none => return .invalid
  | some opcodes =>
      let found ← sizes estimate .alreadyCounted variants
      match anyOf? found, anyOf? (opcodes.map fun o => .bits o.length) with
      | some values, some tags => return values.sum tags
      | _, _ => return .invalid

/-- The size of a union. -/
def unionSize (estimate : Ty → TagMode → Sizing CellSize) (variants : List Ty) :
    Sizing CellSize := do
  match Ty.nullableInner? variants with
  | some inner => return optionSize (← estimate inner .counted)
  | none =>
    match variants with
    | [left, right] =>
        if !left.hasDeclaredTag && !right.hasDeclaredTag then
          let l ← estimate left .counted
          let r ← estimate right .counted
          return (CellSize.bits 1).sum (l.minmax r)
        else taggedSize estimate variants
    | _ => taggedSize estimate variants

/-- The size of a type, from the sizes of other types and without looking it up:
`estimate` finds the size of a part and `again` that of the body of an
instantiation. -/
def calculate (estimate again : Ty → TagMode → Sizing CellSize) (t : Ty) (mode : TagMode) :
    Sizing CellSize :=
  match t with
  | .intN width _ => return .bits width
  | .bitsN width => return .bits width
  | .bytesN width => return .bits (cappedMul width 8)
  | .varIntN width _ => return if width = 32 then .between 5 253 0 0 else .between 4 124 0 0
  | .coins => return .between 4 124 0 0
  | .int => return .bits 257
  | .bool => return .bits 1
  | .null | .never => return .bits 0
  | .void | .unknown | .enum _ => return .invalid
  | .struct _ fields => return (tagSize t mode).sum (← sumAll estimate fields)
  | .alias _ inner => estimate inner .counted
  | .tensor elements => sumAll estimate elements
  | .tuple elements => sumAll estimate elements
  | .union variants => unionSize estimate variants
  | .function .. | .typeParam .. => return .unpredictable
  | .builtin nominal => return builtinSize nominal.name
  | .instantiation inner args =>
      match inner.nominal? with
      | none => return .unpredictable
      | some nominal =>
          if nominal.name = "Cell" then return .between 0 0 1 1
          else if nominal.name = "map" then return .between 0 1 0 1
          else
            match inner with
            | .struct .. | .alias .. => again (instantiatedBody inner nominal args) mode
            | _ => return .unpredictable

/-- The remembered size of a type, or else the calculated one, which is then
remembered. -/
def remembered (calculate : Ty → TagMode → Sizing CellSize) (t : Ty) (mode : TagMode) :
    Sizing CellSize := do
  let key := (t.name, mode)
  match (← get)[key]? with
  | some size => return size
  | none =>
      let size ← calculate t mode
      modify (·.insert key size)
      return size

/-- The calculated size of a type, in at most `depth` steps down. -/
def calculated : Nat → Ty → TagMode → Sizing CellSize
  | 0, _, _ => failure
  | depth + 1, t, mode =>
      calculate (remembered (calculated depth)) (calculated depth) t mode

/-- The steps down that do for a type unless it is nested very deeply. -/
def usualDepth : Nat := 1000000

/-- The size of a type. -/
def estimate (t : Ty) (mode : TagMode) : Sizing CellSize :=
  remembered (calculated usualDepth) t mode <|> remembered (calculated t.weight) t mode

end Sizing

/-- The size of a type, and the sizes found by then. A type that has no size
within the steps down counts as one that cannot be stored. -/
def SizeMemo.estimate (memo : SizeMemo) (t : Ty) (mode : TagMode) : CellSize × SizeMemo :=
  ((Sizing.estimate t mode).run memo).getD (.invalid, memo)

/-- The size of a type, found afresh. -/
def Ty.size (t : Ty) : CellSize := (SizeMemo.estimate ∅ t .counted).1

end TolkAnalysis
