import TolkAnalysis.Ty.Union

/-!
# Assignability

`t.accepts r` says whether a value of type `r` may be stored where a `t` is
expected. `never` fits everywhere and `unknown` fits and accepts everything, so
an expression whose type could not be found never makes a mismatch. The integer
types accept each other, except that two with a fixed width must agree in it.

A union accepts a value if one variant is the right one for it:
`exactVariantToFit` is that variant. A variant with the same base type is
right; without one, a single variant that accepts the value is, and two make
the choice ambiguous. A value of a union type fits only between unions with
null over the same base type, or where all its variants are variants.
-/

namespace TolkAnalysis

namespace Ty

/-- The type has a name, and it is the given one. -/
def isNamed (t : Ty) (name : String) : Bool := t.nominal?.any (·.name == name)

/-- The struct of a typed cell, possibly behind aliases and instantiations. -/
def isTypedCell (t : Ty) : Bool :=
  match t.baseType with
  | .struct nominal _ => nominal.name == "Cell"
  | _ => false

/-- The union that is the body of an instantiated alias, if it is one. -/
def unionBody? (t : Ty) : Option (List Ty) :=
  match t.unwrapAlias with
  | .union variants => some variants
  | _ => none

/-- The union itself, if a value of the union `others` fits it because both add
null to the same base type. -/
def fitNullable? (variants others : List Ty) : Option Ty :=
  match nullableInner? variants, nullableInner? others with
  | some s, some t => if s.baseType.equals t.baseType then some (.union variants) else none
  | _, _ => none

/-- The only type of a list, if it has exactly one. -/
def single? : List Ty → Option Ty
  | [t] => some t
  | _ => none

theorem sizeOf_lt_of_unionBody? {t : Ty} {variants : List Ty} (h : t.unionBody? = some variants) :
    sizeOf (Ty.union variants) ≤ sizeOf t := by
  unfold unionBody? at h
  split at h
  · rename_i vs heq
    cases h
    rw [← heq]
    exact sizeOf_unwrapAlias_le t
  · cases h

mutual

/-- A value of type `r` may be stored where a `t` is expected. -/
def accepts (t r : Ty) : Bool :=
  match t, r with
  | _, .never => true
  | .unknown, _ => true
  | .alias n s, r => r.isNamed n.name || s.accepts r
  | t, .alias _ r => t.accepts r
  | _, .unknown => true
  | .intN w _, .intN w' _ => w == w'
  | .int, r => r.isIntFamily
  | .intN .., r => r.isIntFamily
  | .varIntN .., r => r.isIntFamily
  | .coins, r => r.isIntFamily
  | .bool, .bool => true
  | .null, .null => true
  | .void, .void => true
  | .bitsN w, r => (Ty.bitsN w).equals r
  | .bytesN w, r => (Ty.bytesN w).equals r
  | .builtin n, r =>
      (n.name == "cell" && r.isTypedCell) ||
        match r with
        | .typeParam .. => true
        | _ => r.isNamed n.name
  | .struct n _, r => r.isNamed n.name
  | .enum n, r => r.isNamed n.name
  | .typeParam .., r => r.nominal?.isSome
  | .tensor ts, .tensor rs => acceptAll ts rs
  | .tuple ts, .tuple rs => acceptAll ts rs
  | .function ps s, .function ps' s' =>
      acceptAll ps ps' && acceptAll ps' ps && s.accepts s' && s'.accepts s
  | .instantiation s args, r =>
      match _h : s.unionBody? with
      | some variants => (Ty.union variants).accepts r
      | none =>
          match r with
          | .instantiation s' args' => s.accepts s' && acceptAll args args'
          | _ => false
  | .union variants, r =>
      (match r.baseType with
        | .union others => (fitNullable? variants others).isSome
        | base =>
            variants.any (·.baseType.equals base) || countAccepting variants r == 1) ||
        match r with
        | .union others => unionContainsAll variants others
        | _ => false
  | _, _ => false
termination_by sizeOf t + sizeOf r
decreasing_by
  all_goals simp_wf
  all_goals try omega
  all_goals
    have := sizeOf_lt_of_unionBody? _h
    simp at this
    omega

/-- The lists have equally many types, and each accepts the one at its position. -/
def acceptAll : List Ty → List Ty → Bool
  | [], [] => true
  | t :: ts, r :: rs => t.accepts r && acceptAll ts rs
  | _, _ => false
termination_by ts rs => sizeOf ts + sizeOf rs

/-- Number of variants that accept a value of type `r`. -/
def countAccepting : List Ty → Ty → Nat
  | [], _ => 0
  | t :: ts, r => (if t.accepts r then 1 else 0) + countAccepting ts r
termination_by ts r => sizeOf ts + sizeOf r

end

/-- The variant of a union as which a value of type `r` is stored. -/
def exactVariantToFit (variants : List Ty) (r : Ty) : Option Ty :=
  match r.baseType with
  | .union others => fitNullable? variants others
  | base =>
      match variants.find? (·.baseType.equals base) with
      | some v => some v
      | none => single? (variants.filter (·.accepts r))

end Ty

end TolkAnalysis
