import TolkAnalysis.Source.Span

/-!
# Lines and positions

A source text is cut into lines after each line feed. `LineIndex` lists the
byte offset at which every line starts, and `LineIndex.position` turns a byte
offset into a line and a byte column: the line is the last one that starts at
or before the offset. Offsets past the end of the text belong to the last
line.

The line is found by halving the range of lines that may start there. The
search says where the offset itself stands in the list, or else which line is
the first to start after it.
-/

namespace TolkAnalysis

/-- A line and a byte column in it, both counted from zero. -/
structure Position where
  line : Nat
  column : Nat
deriving DecidableEq, Inhabited

/-- Positions are ordered by their line, then by their column. -/
def Position.order (p q : Position) : Ordering :=
  (compare p.line q.line).then (compare p.column q.column)

/-- Where a number stands in a list of increasing numbers. -/
inductive Place where
  | found (index : Nat)
  /-- The number is not there and would have to be put in at the index. -/
  | absent (index : Nat)
deriving DecidableEq

namespace Place

/-- Halves a range of `size` numbers from `base` on until one is left: the last
one that is not above `x`, or the first one if all are above. -/
def narrow (xs : Array Nat) (x base size : Nat) (hrange : base + size ≤ xs.size) : Nat :=
  if hsize : size ≤ 1 then base
  else if x < xs[base + size / 2] then narrow xs x base (size - size / 2) (by omega)
  else narrow xs x (base + size / 2) (size - size / 2) (by omega)
termination_by size

/-- Where `x` stands in increasing numbers. -/
def ofSorted (xs : Array Nat) (x : Nat) : Place :=
  let base := narrow xs x 0 xs.size (by omega)
  match xs[base]? with
  | none => .absent 0
  | some y => if y = x then .found base else if y < x then .absent (base + 1) else .absent base

end Place

/-- The offsets at which the lines of a text start, in order. -/
structure LineIndex where
  starts : Array Nat
deriving Inhabited

namespace LineIndex

/-- The offsets just after each line feed in `bytes`, which begin at `offset`.
None is above `Span.maxOffset`. -/
def startsAfter (offset : Nat) : List UInt8 → List Nat
  | [] => []
  | b :: bytes =>
      if b = 10 then min (offset + 1) Span.maxOffset :: startsAfter (offset + 1) bytes
      else startsAfter (offset + 1) bytes

/-- The line index of a text. The first line starts at offset zero. -/
def ofSource (source : String) : LineIndex :=
  ⟨(0 :: startsAfter 0 source.toByteArray.data.toList).toArray⟩

/-- One more than the number of line feeds. -/
def lineCount (index : LineIndex) : Nat := index.starts.size

/-- The line that `offset` lies on: the one that starts there, or else the one
before the first that starts later. -/
def lineAt (index : LineIndex) (offset : Nat) : Nat :=
  match Place.ofSorted index.starts offset with
  | .found line => line
  | .absent next => next - 1

/-- The line that `offset` lies on and its distance from the start of that line. -/
def position (index : LineIndex) (offset : Nat) : Position :=
  let line := index.lineAt offset
  ⟨min line Span.maxOffset, offset - (index.starts[line]?).getD 0⟩

end LineIndex

end TolkAnalysis
