import TolkAnalysis.Ty.Union

/-!
# Joins

The join of two types is the type of an expression that may be of either: an
arm of a match, one side of `??`, a returned value. Equal types join to the
first of them, `unknown` on the right wins, `never` gives way and null on the
right makes the other type nullable. Tensors and tuples of equal length join
element by element; any other types join to their union.
-/

namespace TolkAnalysis

namespace Ty

mutual

/-- A type for the values of both types. -/
def join (s t : Ty) : Ty :=
  if s.equals t then s
  else
    match s, t with
    | _, .unknown => .unknown
    | s, .never => s
    | .never, t => t
    | s, .null => nullable s
    | .tensor ss, .tensor ts =>
        if ss.length = ts.length then .tensor (joinAll ss ts)
        else unionOf [.tensor ss, .tensor ts]
    | .tuple ss, .tuple ts =>
        if ss.length = ts.length then .tuple (joinAll ss ts)
        else unionOf [.tuple ss, .tuple ts]
    | .alias _ s, t => join s t
    | s, .alias _ t => join s t
    | s, t => unionOf [s, t]
termination_by sizeOf s + sizeOf t

/-- The joins of the types at equal positions. -/
def joinAll : List Ty → List Ty → List Ty
  | s :: ss, t :: ts => join s t :: joinAll ss ts
  | _, _ => []
termination_by ss ts => sizeOf ss + sizeOf ts

end

/-- The join of a list of types, from the left. -/
def joinList? : List Ty → Option Ty
  | [] => none
  | t :: ts => some (ts.foldl join t)

end Ty

end TolkAnalysis
