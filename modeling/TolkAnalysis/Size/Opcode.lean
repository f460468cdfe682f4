import TolkAnalysis.Ty.Union

/-!
# Tags of union variants

A union is stored as a tag, which tells the variants apart, and a variant. The
tags are either those declared with the structs of the union or made up; a
union of some structs with a declared tag and some variants without one has no
tags.

A made-up tag is the number of the variant among those other than null, in just
as many bits as these need. With null in the union these tags begin with a one
and the tag of null is a zero.
-/

namespace TolkAnalysis

/-- A tag: the low `length` bits of `bits`. Of a tag of more than 128 bits only
the low 128 are kept. -/
structure Opcode where
  bits : BitVec 128
  length : UInt32
deriving DecidableEq

namespace Opcode

/-- The value of a digit, for digits below the radix. -/
def digit? (radix : Nat) (c : Char) : Option Nat :=
  let value :=
    if c.isDigit then some (c.toNat - '0'.toNat)
    else if 'a' ≤ c ∧ c ≤ 'f' then some (c.toNat - 'a'.toNat + 10)
    else if 'A' ≤ c ∧ c ≤ 'F' then some (c.toNat - 'A'.toNat + 10)
    else none
  value.filter (· < radix)

/-- The number that digits of a radix denote. -/
def valueOfDigits (radix : Nat) (digits : List Nat) : Nat :=
  digits.foldl (fun n d => radix * n + d) 0

/-- The radix that a literal is written in, and its digits. -/
def splitRadix : List Char → Nat × List Char
  | '0' :: 'x' :: cs => (16, cs)
  | '0' :: 'X' :: cs => (16, cs)
  | '0' :: 'b' :: cs => (2, cs)
  | '0' :: 'B' :: cs => (2, cs)
  | cs => (10, cs)

/-- Half of a number in decimal digits, rounded down, when the digits before it
leave `carry` over. -/
def halve (carry : Nat) : List Nat → List Nat
  | [] => []
  | d :: ds => (10 * carry + d) / 2 :: halve ((10 * carry + d) % 2) ds

/-- Zeros in front of a number do not count. -/
theorem valueOfDigits_dropWhile (radix : Nat) (digits : List Nat) :
    valueOfDigits radix (digits.dropWhile (· == 0)) = valueOfDigits radix digits := by
  induction digits with
  | nil => rfl
  | cons d ds ih =>
      by_cases hd : d = 0
      · subst hd
        exact ih
      · rw [List.dropWhile_cons_of_neg (by simpa using hd)]

theorem le_foldl_digits (radix n : Nat) (digits : List Nat) (hradix : 0 < radix) :
    n ≤ digits.foldl (fun n d => radix * n + d) n := by
  induction digits generalizing n with
  | nil => exact Nat.le_refl n
  | cons d ds ih =>
      have hn : n ≤ radix * n := Nat.le_mul_of_pos_left n hradix
      exact Nat.le_trans (Nat.le_trans hn (Nat.le_add_right _ d)) (ih _)

/-- A carry weighs twice as much as the digit that is being written. -/
theorem foldl_halve (n carry : Nat) (digits : List Nat) (hcarry : carry < 2) :
    (halve carry digits).foldl (fun n d => 10 * n + d) n =
      digits.foldl (fun n d => 10 * n + d) (2 * n + carry) / 2 := by
  induction digits generalizing n carry with
  | nil =>
      simp only [halve, List.foldl_nil]
      omega
  | cons d ds ih =>
      have hrest := ih (10 * n + (10 * carry + d) / 2) ((10 * carry + d) % 2) (Nat.mod_lt _ (by decide))
      have hstart : 2 * (10 * n + (10 * carry + d) / 2) + (10 * carry + d) % 2 =
          10 * (2 * n + carry) + d := by omega
      rw [hstart] at hrest
      exact hrest

theorem valueOfDigits_halve (digits : List Nat) :
    valueOfDigits 10 (halve 0 digits) = valueOfDigits 10 digits / 2 :=
  foldl_halve 0 0 digits (by decide)

/-- A number with a digit other than zero in front is not zero. -/
theorem valueOfDigits_pos {digits ds : List Nat} {d : Nat}
    (h : digits.dropWhile (· == 0) = d :: ds) : 0 < valueOfDigits 10 digits := by
  have hd := List.head?_dropWhile_not (· == 0) digits
  rw [h] at hd
  have hpos : 0 < d := Nat.pos_of_ne_zero (by simpa using hd)
  rw [← valueOfDigits_dropWhile, h]
  exact Nat.lt_of_lt_of_le (by simpa using hpos) (le_foldl_digits 10 (10 * 0 + d) ds (by decide))

/-- How often a number in decimal digits is halved until it is zero. -/
def halvings (digits : List Nat) : Nat :=
  match h : digits.dropWhile (· == 0) with
  | [] => 0
  | d :: ds => halvings (halve 0 (d :: ds)) + 1
termination_by valueOfDigits 10 digits
decreasing_by
  rw [valueOfDigits_halve, ← h, valueOfDigits_dropWhile]
  exact Nat.div_lt_self (valueOfDigits_pos h) (by decide)

/-- The low bits of the number that digits of a radix denote. -/
def lowBits (radix : Nat) (digits : List Nat) : BitVec 128 :=
  digits.foldl (fun n d => BitVec.ofNat 128 radix * n + BitVec.ofNat 128 d) 0

/-- The tag that a literal denotes: four bits a digit in base sixteen, one bit a
digit in base two, and as many bits as the number has in base ten. Underscores
between the characters do not count. -/
def ofLiteral? (text : String) : Option Opcode := do
  let (radix, cs) := splitRadix (text.toList.filter (· ≠ '_'))
  let digits ← cs.mapM (digit? radix)
  if digits.isEmpty then none
  let length :=
    if radix = 16 then 4 * digits.length
    else if radix = 2 then digits.length
    else max 1 (halvings digits)
  if length < UInt32.size then some ⟨lowBits radix digits, UInt32.ofNat length⟩ else none

end Opcode

namespace Ty

/-- The literal that tags a struct. -/
def declaredTag? : Ty → Option String
  | .struct nominal _ => (nominal.anchor.bind (·.packPrefix?)).map (·.text)
  | _ => none

/-- The type is a struct with a declared tag. -/
def hasDeclaredTag (t : Ty) : Bool := t.declaredTag?.isSome

/-- The declared tag of a struct. -/
def structOpcode? (t : Ty) : Option Opcode := t.declaredTag?.bind Opcode.ofLiteral?

end Ty

namespace Opcode

/-- Number of bits needed to number so many things. -/
def bitsToCount (n : Nat) : Nat := if n ≤ 1 then 0 else Nat.log2 (n - 1) + 1

/-- The made-up tag of the variant with a given number. -/
def numbered (withNull : Bool) (length index : Nat) : Opcode :=
  if withNull then ⟨BitVec.ofNat 128 (1 <<< length + index), UInt32.ofNat (length + 1)⟩
  else ⟨BitVec.ofNat 128 index, UInt32.ofNat length⟩

/-- The type is null. -/
def isNull : Ty → Bool
  | .null => true
  | _ => false

/-- The made-up tags of variants, the next of which has the number `index`. -/
def number (withNull : Bool) (length : Nat) : Nat → List Ty → List Opcode
  | _, [] => []
  | index, t :: ts =>
      if isNull t then ⟨0, 1⟩ :: number withNull length index ts
      else numbered withNull length index :: number withNull length (index + 1) ts

/-- The tags of the variants of a union, in order. -/
def ofVariants? (variants : List Ty) : Option (List Opcode) :=
  let types := variants.map Ty.unwrapAlias
  let withNull := types.any isNull
  if types.all Ty.hasDeclaredTag then
    some (types.map fun t => t.structOpcode?.getD ⟨0, 1⟩)
  else if types.any Ty.hasDeclaredTag then none
  else
    some (number withNull (bitsToCount (types.length - withNull.toNat)) 0 types)

end Opcode

end TolkAnalysis
