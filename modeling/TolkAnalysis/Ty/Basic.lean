import TolkAnalysis.Decl.View

/-!
# Types

`Ty` is the type of a value. A named type carries its name and, when it is
known, the declaration that it comes from. A struct carries the types of its
members and an alias the type that it stands for, so a type can be taken apart
without looking anything up. A generic type that is applied to arguments is an
instantiation; its inner type is what it applies, with the arguments already
put in place where that could be done.

`Ty.baseType`, `Ty.unwrapAlias` and `Ty.unwrapInstantiation` remove aliases and
instantiations from the outside of a type, each in its own way.
-/

namespace TolkAnalysis

/-- The name of a type and the declaration that it comes from, when known. -/
structure Nominal where
  name : String
  anchor : Option Decl

/-- A type. -/
inductive Ty where
  | int
  | intN (width : UInt32) (unsigned : Bool)
  | varIntN (width : UInt32) (unsigned : Bool)
  | coins
  | bool
  | bitsN (width : UInt32)
  | bytesN (width : UInt32)
  | null
  | void
  | never
  | unknown
  /-- A type that is known to the compiler by name alone. -/
  | builtin (nominal : Nominal)
  | struct (nominal : Nominal) (fields : List Ty)
  | enum (nominal : Nominal)
  | alias (nominal : Nominal) (inner : Ty)
  | typeParam (nominal : Nominal) (default : Option Ty)
  | tensor (elements : List Ty)
  | tuple (elements : List Ty)
  | union (variants : List Ty)
  | function (params : List Ty) (result : Ty)
  | instantiation (inner : Ty) (args : List Ty)

namespace Ty

instance : Inhabited Ty := ⟨.unknown⟩

/-- The type `t` of a union of `t` and null. -/
def nullableInner? : List Ty → Option Ty
  | [.null, t] => some t
  | [t, .null] => some t
  | _ => none

/-- The mark before the width of an unsigned type. -/
def unsignedMark (unsigned : Bool) : String := if unsigned then "u" else ""

mutual

/-- How a type is shown. -/
def name : Ty → String
  | .int => "int"
  | .intN width unsigned => unsignedMark unsigned ++ "int" ++ toString width.toNat
  | .varIntN width unsigned => "var" ++ unsignedMark unsigned ++ "int" ++ toString width.toNat
  | .coins => "coins"
  | .bool => "bool"
  | .bitsN width => "bits" ++ toString width.toNat
  | .bytesN width => "bytes" ++ toString width.toNat
  | .null => "null"
  | .void => "void"
  | .never => "never"
  | .unknown => "unknown"
  | .builtin nominal => nominal.name
  | .struct nominal _ => nominal.name
  | .enum nominal => nominal.name
  | .alias nominal _ => nominal.name
  | .typeParam nominal _ => nominal.name
  | .tensor elements => "(" ++ String.intercalate ", " (names elements) ++ ")"
  | .tuple elements => "[" ++ String.intercalate ", " (names elements) ++ "]"
  | .union [.null, t] => t.name ++ "?"
  | .union [t, .null] => t.name ++ "?"
  | .union variants => String.intercalate " | " (names variants)
  | .function params result =>
      "(" ++ String.intercalate ", " (names params) ++ ") -> " ++ result.name
  | .instantiation inner args =>
      inner.name ++ "<" ++ String.intercalate ", " (names args) ++ ">"

/-- How the types of a list are shown. -/
def names : List Ty → List String
  | [] => []
  | t :: ts => t.name :: names ts

end

/-- The name and the declaration of a named type. -/
def nominal? : Ty → Option Nominal
  | .builtin nominal => some nominal
  | .struct nominal _ => some nominal
  | .enum nominal => some nominal
  | .alias nominal _ => some nominal
  | .typeParam nominal _ => some nominal
  | _ => none

/-- The declaration that a named type comes from. -/
def anchor? (t : Ty) : Option Decl := t.nominal?.bind (·.anchor)

/-- One of the types of integers. -/
def isIntFamily : Ty → Bool
  | .int | .intN .. | .varIntN .. | .coins => true
  | _ => false

mutual

/-- The type mentions a type parameter, other than in the members of a struct
and the inner type of an instantiation. -/
def hasGenerics : Ty → Bool
  | .typeParam .. => true
  | .alias _ inner => inner.hasGenerics
  | .tensor elements => anyHasGenerics elements
  | .tuple elements => anyHasGenerics elements
  | .union variants => anyHasGenerics variants
  | .function params result => anyHasGenerics params || result.hasGenerics
  | .instantiation _ args => anyHasGenerics args
  | _ => false

/-- One of the types mentions a type parameter. -/
def anyHasGenerics : List Ty → Bool
  | [] => false
  | t :: ts => t.hasGenerics || anyHasGenerics ts

end

mutual

/-- Number of parts of a type, itself included. -/
def weight : Ty → Nat
  | .struct _ fields => 1 + weights fields
  | .alias _ inner => 1 + inner.weight
  | .tensor elements => 1 + weights elements
  | .tuple elements => 1 + weights elements
  | .union variants => 1 + weights variants
  | .function params result => 1 + weights params + result.weight
  | .instantiation inner args => 1 + inner.weight + weights args
  | _ => 1

/-- Number of parts of the types of a list. -/
def weights : List Ty → Nat
  | [] => 0
  | t :: ts => t.weight + weights ts

end

/-- Without aliases and instantiations around it. -/
def baseType : Ty → Ty
  | .alias _ inner => inner.baseType
  | .instantiation inner _ => inner.baseType
  | t => t

/-- Without aliases around it. An instantiated alias of a union is that union;
any other instantiated alias keeps its arguments around what it stands for. -/
def unwrapAlias : Ty → Ty
  | .alias _ inner => inner.unwrapAlias
  | .instantiation (.alias _ (.union variants)) _ => .union variants
  | .instantiation (.alias _ body) args => .instantiation body.unwrapAlias args
  | t => t

/-- Without instantiations around it. -/
def unwrapInstantiation : Ty → Ty
  | .instantiation inner _ => inner.unwrapInstantiation
  | t => t

theorem sizeOf_unwrapAlias_le (t : Ty) : sizeOf t.unwrapAlias ≤ sizeOf t := by
  fun_induction unwrapAlias t with
  | case1 n inner ih => simp; omega
  | case2 n variants args => simp; omega
  | case3 n body args _ ih => simp; omega
  | case4 t => exact Nat.le_refl _

theorem sizeOf_unwrapInstantiation_le (t : Ty) : sizeOf t.unwrapInstantiation ≤ sizeOf t := by
  fun_induction unwrapInstantiation t with
  | case1 inner args ih => simp; omega
  | case2 t => exact Nat.le_refl _

/-- A union of some type and null, possibly behind aliases. -/
def isNullable (t : Ty) : Bool :=
  match t.unwrapAlias with
  | .union variants => (nullableInner? variants).isSome
  | _ => false

/-- The type `s` for a union of `s` and null, possibly behind aliases, and any
other type as it is. -/
def unwrapOption (t : Ty) : Ty :=
  match t.unwrapAlias with
  | .union variants => (nullableInner? variants).getD t
  | _ => t

/-- The elements of a tensor or a tuple, possibly behind aliases. -/
def elements? (t : Ty) : Option (List Ty) :=
  match t.unwrapAlias with
  | .tensor elements => some elements
  | .tuple elements => some elements
  | _ => none

/-- The number written in decimal digits, if it fits 32 bits. -/
def width? (digits : String) : Option UInt32 :=
  let cs := digits.toList
  let value := cs.foldl (fun n c => 10 * n + (c.toNat - '0'.toNat)) 0
  if cs ≠ [] ∧ cs.all Char.isDigit ∧ value < UInt32.size then some (UInt32.ofNat value)
  else none

/-- The families of types with a width: how their names begin, and the type of
each width. An earlier entry wins over a later one that fits as well. -/
def sizedFamilies : List (String × (UInt32 → Ty)) :=
  [("varuint", (.varIntN · true)), ("varint", (.varIntN · false)), ("uint", (.intN · true)),
   ("int", (.intN · false)), ("bits", .bitsN), ("bytes", .bytesN)]

/-- The type of a primitive with a width in its name. -/
def sizedOfName? (name : String) : Option Ty :=
  (sizedFamilies.findSome? fun (lead, make) =>
    (Text.dropLeading? lead name).map fun digits => (width? digits).map make).join

/-- The primitive type with a given name. -/
def ofName? (name : String) : Option Ty :=
  match name with
  | "int" => some .int
  | "bool" => some .bool
  | "coins" => some .coins
  | "null" => some .null
  | "void" => some .void
  | "never" => some .never
  | _ => sizedOfName? name

end Ty

end TolkAnalysis
