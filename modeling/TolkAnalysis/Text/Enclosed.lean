/-!
# Parts of a text

Names may be written between backticks and import paths stand between double
quotes. `Text.enclosed` removes such a pair of marks when both are there and
leaves every other text alone. `Text.slice` reads a range of bytes as text;
a range that is reversed, out of bounds or that cuts a character holds no
text.
-/

namespace TolkAnalysis

namespace Text

/-- What follows `lead`, for a text that begins with it. -/
def dropLeading? (lead s : String) : Option String :=
  (lead.toList.isPrefixOf? s.toList).map String.ofList

/-- What stands before `trail`, for a text that ends with it. -/
def dropTrailing? (trail s : String) : Option String :=
  (trail.toList.isSuffixOf? s.toList).map String.ofList

/-- The text between two marks, for a text that begins and ends with its own
copy of the mark, and the text itself otherwise. -/
def enclosed (mark s : String) : String :=
  ((dropLeading? mark s).bind (dropTrailing? mark)).getD s

/-- A name without the backticks around it. -/
def withoutBackticks (name : String) : String := enclosed "\x60" name

/-- A string literal without the double quotes around it. -/
def withoutQuotes (literal : String) : String := enclosed "\"" literal

/-- The text of the bytes from `start` up to `stop`. -/
def slice (bytes : ByteArray) (start stop : Nat) : String :=
  if start ≤ stop ∧ stop ≤ bytes.size then
    (String.fromUTF8? (bytes.extract start stop)).getD ""
  else ""

theorem slice_of_size_lt {bytes : ByteArray} {start stop : Nat} (h : bytes.size < stop) :
    slice bytes start stop = "" := by
  simp [slice, Nat.not_le.mpr h]

theorem slice_of_le {bytes : ByteArray} {start stop : Nat} (h : stop ≤ start) :
    slice bytes start stop = "" := by
  unfold slice
  split
  · rename_i hbounds
    obtain rfl : start = stop := Nat.le_antisymm hbounds.1 h
    rw [ByteArray.extract_same]
    rfl
  · rfl

end Text

end TolkAnalysis
