/-!
# Sizes in a cell

How many bits and how many references a value takes in a cell is a range, or
nothing if the value cannot be stored. Two ranges are combined in two ways: one
value after the other, and one value or the other.

Numbers take 32 bits and stay at their largest value instead of wrapping
around. A sum of bits also stays at `CellSize.maxBits`, which stands for any
larger number; a sum of references does not.
-/

namespace TolkAnalysis

/-- The sum of two numbers, or the largest number if the sum is larger. -/
def cappedAdd (a b : UInt32) : UInt32 :=
  if a.toNat + b.toNat < UInt32.size then a + b else UInt32.ofNat (UInt32.size - 1)

/-- A multiple of a number, or the largest number if the multiple is larger. -/
def cappedMul (a b : UInt32) : UInt32 :=
  if a.toNat * b.toNat < UInt32.size then a * b else UInt32.ofNat (UInt32.size - 1)

theorem toNat_cappedAdd (a b : UInt32) :
    (cappedAdd a b).toNat = min (a.toNat + b.toNat) (UInt32.size - 1) := by
  unfold cappedAdd
  split
  · rename_i h
    rw [UInt32.toNat_add, Nat.mod_eq_of_lt h]
    exact (Nat.min_eq_left (Nat.le_sub_one_of_lt h)).symm
  · rename_i h
    have : UInt32.size - 1 ≤ a.toNat + b.toNat := by omega
    rw [Nat.min_eq_right this]
    rfl

/-- The least and the greatest number of bits and of references. -/
structure Extent where
  minBits : UInt32
  maxBits : UInt32
  minRefs : UInt32
  maxRefs : UInt32
deriving DecidableEq, Inhabited

/-- The size of a value in a cell; a value that cannot be stored has none. -/
inductive CellSize where
  | invalid
  | range (extent : Extent)
deriving DecidableEq, Inhabited

namespace CellSize

/-- Any larger number of bits is taken for this one. -/
def maxBits : UInt32 := 9999

/-- Between the given numbers of bits and of references. -/
def between (minBits maxBits minRefs maxRefs : UInt32) : CellSize :=
  .range ⟨minBits, maxBits, minRefs, maxRefs⟩

/-- Exactly so many bits and no references. -/
def bits (count : UInt32) : CellSize := between count count 0 0

/-- Anything from nothing to a full cell. -/
def unpredictable : CellSize := between 0 maxBits 0 4

/-- Both values, one after the other. -/
def sum : CellSize → CellSize → CellSize
  | .range a, .range b =>
      between (min (cappedAdd a.minBits b.minBits) maxBits)
        (min (cappedAdd a.maxBits b.maxBits) maxBits)
        (cappedAdd a.minRefs b.minRefs) (cappedAdd a.maxRefs b.maxRefs)
  | _, _ => .invalid

/-- One value or the other. -/
def minmax : CellSize → CellSize → CellSize
  | .range a, .range b =>
      between (min a.minBits b.minBits) (max a.maxBits b.maxBits)
        (min a.minRefs b.minRefs) (max a.maxRefs b.maxRefs)
  | _, _ => .invalid

/-- The size is known and the value can be stored. -/
def isValid : CellSize → Bool
  | .invalid => false
  | .range _ => true

/-- The numbers of a size; all zero for a value that cannot be stored. -/
def extent : CellSize → Extent
  | .invalid => ⟨0, 0, 0, 0⟩
  | .range e => e

/-- One of the two ranges, with its unit. -/
def rangeText (first second : UInt32) (unit : String) : String :=
  if first ≠ second then toString first.toNat ++ ".." ++ toString second.toNat ++ " " ++ unit ++ "s"
  else if first = 1 then toString first.toNat ++ " " ++ unit
  else toString first.toNat ++ " " ++ unit ++ "s"

/-- How a size is shown. An exact size leaves out references if it has none. -/
def text : CellSize → String
  | .invalid => "unknown or invalid size"
  | .range e =>
      if e.minBits = e.maxBits ∧ e.minRefs = e.maxRefs then
        if e.minRefs = 0 then toString e.minBits.toNat ++ " bits"
        else toString e.minBits.toNat ++ " bits, " ++ toString e.minRefs.toNat ++ " refs"
      else
        rangeText e.minBits e.maxBits "bit" ++ ", " ++ rangeText e.minRefs e.maxRefs "ref"

end CellSize

end TolkAnalysis
