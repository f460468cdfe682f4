import Std.Data.HashMap
import TolkAnalysis.Ty.Union

/-!
# Substitution

A substitution binds names of type parameters to types. `Ty.substitute` puts
the bindings in place and builds unions anew, since variants that were distinct
may become equal. The default of a type parameter is not a part of the type,
and nothing is substituted in it.

`Substitution.deduce` goes the other way and learns bindings by laying a
declared type over an actual one. The first binding of a name to a type other
than a type parameter or `never` stays.
-/

namespace TolkAnalysis

/-- Types for the names of type parameters. -/
structure Substitution where
  bindings : Std.HashMap String Ty

namespace Substitution

/-- The substitution that binds nothing. -/
def empty : Substitution := ⟨∅⟩

instance : Inhabited Substitution := ⟨empty⟩

/-- Number of names that are bound. -/
def size (σ : Substitution) : Nat := σ.bindings.size

/-- No name is bound. -/
def isEmpty (σ : Substitution) : Bool := σ.bindings.isEmpty

/-- The type that a name is bound to. -/
def get? (σ : Substitution) (name : String) : Option Ty := σ.bindings[name]?

/-- Binds a name, whatever it was bound to before. -/
def insert (σ : Substitution) (name : String) (t : Ty) : Substitution :=
  ⟨σ.bindings.insert name t⟩

/-- Binds names one after another. -/
def ofList (bindings : List (String × Ty)) : Substitution :=
  bindings.foldl (fun σ b => σ.insert b.1 b.2) empty

/-- Binds the named types among `params` to the arguments at their positions. -/
def ofParams (params args : List Ty) : Substitution :=
  ofList ((params.zip args).filterMap fun (p, a) => p.nominal?.map (·.name, a))

end Substitution

namespace Ty

mutual

/-- The type with each type parameter replaced by what its name is bound to. -/
def replaceParams (σ : Substitution) : Ty → Ty
  | .typeParam nominal default => (σ.get? nominal.name).getD (.typeParam nominal default)
  | .struct nominal fields => .struct nominal (replaceAll σ fields)
  | .alias nominal inner => .alias nominal (replaceParams σ inner)
  | .tensor elements => .tensor (replaceAll σ elements)
  | .tuple elements => .tuple (replaceAll σ elements)
  | .union variants => unionOf (replaceAll σ variants)
  | .function params result => .function (replaceAll σ params) (replaceParams σ result)
  | .instantiation inner args => .instantiation (replaceParams σ inner) (replaceAll σ args)
  | t => t

/-- The types of a list with their type parameters replaced. -/
def replaceAll (σ : Substitution) : List Ty → List Ty
  | [] => []
  | t :: ts => replaceParams σ t :: replaceAll σ ts

end

/-- Puts the bindings of a substitution in place. A substitution that binds
nothing leaves every type as it is. -/
def substitute (t : Ty) (σ : Substitution) : Ty :=
  if σ.isEmpty then t else t.replaceParams σ

end Ty

namespace Substitution

/-- The binding of a name may still be replaced: it is a type parameter or
`never`. -/
def isOpen : Ty → Bool
  | .typeParam .. => true
  | .never => true
  | _ => false

/-- Binds the name of a type parameter to an argument, unless it is bound for
good. A type parameter that is given itself takes its default. -/
def bind (σ : Substitution) (nominal : Nominal) (default : Option Ty) (arg : Ty) :
    Substitution :=
  if (σ.get? nominal.name).all isOpen then
    match arg, default with
    | .typeParam n _, some d =>
        σ.insert nominal.name (if n.name == nominal.name then d else arg)
    | _, _ => σ.insert nominal.name arg
  else σ

/-- The variants of an argument that the variants of a parameter without type
parameters leave over; nothing if one of those is not among the argument's. -/
def leftOver? (variants args : List Ty) : Option (List Ty) :=
  (variants.filter (!·.hasGenerics)).foldlM
    (fun rest v => if rest.any (·.equals v) then some (rest.filter (!·.equals v)) else none)
    args

/-- The arguments for the variants with type parameters, in order: what is left
over, taken together if there is a single such variant. -/
def variantArgs? (variants args : List Ty) : Option (List Ty) := do
  let rest ← leftOver? variants args
  let open_ := (variants.filter (·.hasGenerics)).length
  if open_ = 1 ∧ 1 < rest.length then some [Ty.unionOf rest]
  else if open_ = rest.length then some rest
  else none

mutual

/-- Learns bindings by laying a declared type over an actual one. -/
def deduce (σ : Substitution) : Ty → Ty → Substitution
  | .instantiation _ params, arg =>
      let σ := match arg.unwrapAlias with
        | .instantiation _ args => deduceAll σ params args
        | _ => σ
      match arg with
      | .instantiation _ args => deduceAll σ params args
      | _ => σ
  | .function params result, arg =>
      match arg with
      | .function params' result' => deduce (deduceAll σ params params') result result'
      | _ => σ
  | .tensor params, arg =>
      match arg with
      | .tensor args => if params.length = args.length then deduceAll σ params args else σ
      | _ => σ
  | .tuple params, arg =>
      match arg with
      | .tuple args => if params.length = args.length then deduceAll σ params args else σ
      | _ => σ
  | .union variants, arg =>
      match arg with
      | .union args =>
          match variantArgs? variants args with
          | some rest => deduceOpen σ variants rest
          | none => σ
      | _ => deduceEach σ variants arg
  | .typeParam nominal default, arg => σ.bind nominal default arg
  | _, _ => σ

/-- Learns from the types at equal positions. -/
def deduceAll (σ : Substitution) : List Ty → List Ty → Substitution
  | p :: ps, a :: as => deduceAll (deduce σ p a) ps as
  | _, _ => σ

/-- Learns from one argument for each of the declared types. -/
def deduceEach (σ : Substitution) : List Ty → Ty → Substitution
  | [], _ => σ
  | p :: ps, a => deduceEach (deduce σ p a) ps a

/-- Learns from the arguments for the declared types that have type parameters. -/
def deduceOpen (σ : Substitution) : List Ty → List Ty → Substitution
  | p :: ps, args =>
      if p.hasGenerics then
        match args with
        | a :: as => deduceOpen (deduce σ p a) ps as
        | [] => σ
      else deduceOpen σ ps args
  | [], _ => σ

end

end Substitution

end TolkAnalysis
