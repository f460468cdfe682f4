import TolkAnalysis.Ty.Equality

/-!
# Unions

Unions are built by `Ty.unionOf` alone. It takes the variants out of unions
among its arguments, also out of unions behind aliases and instantiations,
leaves out a variant that an earlier one equals once aliases are removed from
both, and answers the variant itself when one is left and `never` when none
is.
-/

namespace TolkAnalysis

namespace Ty

/-- Adds a variant after the others, unless an earlier one equals it. -/
def addVariant (variants : List Ty) (t : Ty) : List Ty :=
  if variants.any (fun s => s.unwrapAlias.equals t.unwrapAlias) then variants
  else variants ++ [t]

/-- The variants that a type adds to a union. -/
def unionParts (t : Ty) : List Ty :=
  match t.baseType with
  | .union variants => variants
  | _ => [t]

/-- The distinct variants of a list of types. -/
def distinctVariants (types : List Ty) : List Ty :=
  (types.flatMap unionParts).foldl addVariant []

/-- The union of some types. -/
def unionOf (types : List Ty) : Ty :=
  match distinctVariants types with
  | [] => .never
  | [t] => t
  | variants => .union variants

/-- The union of a type and null. -/
def nullable (t : Ty) : Ty := unionOf [t, .null]

end Ty

end TolkAnalysis
