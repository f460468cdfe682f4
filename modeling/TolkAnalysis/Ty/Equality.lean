import TolkAnalysis.Ty.Basic

/-!
# Equality of types

Two types are equal if they denote the same values as far as names tell. Two
aliases are equal if both their names and what they stand for are equal; an
alias and any other type are compared by what the alias stands for. Named
types are compared by name, unions as sets of variants, and other composite
types part by part.
-/

namespace TolkAnalysis

namespace Ty

/-- Without aliases directly around it. -/
def stripAliases : Ty → Ty
  | .alias _ inner => inner.stripAliases
  | t => t

mutual

/-- Equality of types, which sees through aliases. -/
def equals : Ty → Ty → Bool
  | .alias n s, t =>
      match t with
      | .alias m t' => n.name == m.name && s.equals t'
      | _ => s.equals t
  | .int, t => match t.stripAliases with
      | .int => true
      | _ => false
  | .intN w u, t => match t.stripAliases with
      | .intN w' u' => w == w' && u == u'
      | _ => false
  | .varIntN w u, t => match t.stripAliases with
      | .varIntN w' u' => w == w' && u == u'
      | _ => false
  | .coins, t => match t.stripAliases with
      | .coins => true
      | _ => false
  | .bool, t => match t.stripAliases with
      | .bool => true
      | _ => false
  | .bitsN w, t => match t.stripAliases with
      | .bitsN w' => w == w'
      | _ => false
  | .bytesN w, t => match t.stripAliases with
      | .bytesN w' => w == w'
      | _ => false
  | .null, t => match t.stripAliases with
      | .null => true
      | _ => false
  | .void, t => match t.stripAliases with
      | .void => true
      | _ => false
  | .never, t => match t.stripAliases with
      | .never => true
      | _ => false
  | .unknown, t => match t.stripAliases with
      | .unknown => true
      | _ => false
  | .builtin n, t => match t.stripAliases with
      | .builtin m => n.name == m.name
      | _ => false
  | .struct n _, t => match t.stripAliases with
      | .struct m _ => n.name == m.name
      | _ => false
  | .enum n, t => match t.stripAliases with
      | .enum m => n.name == m.name
      | _ => false
  | .typeParam n _, t => match t.stripAliases with
      | .typeParam m _ => n.name == m.name
      | _ => false
  | .tensor ss, t => match t.stripAliases with
      | .tensor ts => allEqual ss ts
      | _ => false
  | .tuple ss, t => match t.stripAliases with
      | .tuple ts => allEqual ss ts
      | _ => false
  | .union ss, t => match t.stripAliases with
      | .union ts => ss.length == ts.length && allAmong ss ts && ts.all (anyEqual ss)
      | _ => false
  | .function ps r, t => match t.stripAliases with
      | .function ps' r' => allEqual ps ps' && r.equals r'
      | _ => false
  | .instantiation s args, t => match t.stripAliases with
      | .instantiation t' args' => s.equals t' && allEqual args args'
      | _ => false

/-- The lists have equal types at equal positions. -/
def allEqual : List Ty → List Ty → Bool
  | [], [] => true
  | s :: ss, t :: ts => s.equals t && allEqual ss ts
  | _, _ => false

/-- Each type of the first list is equal to some type of the second. -/
def allAmong : List Ty → List Ty → Bool
  | [], _ => true
  | s :: ss, ts => ts.any (fun t => s.equals t) && allAmong ss ts

/-- Some type of the list is equal to the type. -/
def anyEqual : List Ty → Ty → Bool
  | [], _ => false
  | s :: ss, t => s.equals t || anyEqual ss t

end

/-- Some variant is equal to the type. -/
def unionContains (variants : List Ty) (t : Ty) : Bool := anyEqual variants t

/-- Each of the other variants is equal to some variant. -/
def unionContainsAll (variants others : List Ty) : Bool :=
  others.all (unionContains variants)

end Ty

end TolkAnalysis
