/-!
# Spans of source text

A span is a half-open range of byte offsets. Nothing forces its ends to be in
order: a reversed span is empty, has length zero and contains no offset, so
every operation below is defined on all pairs of offsets. Offsets that come
from outside are capped at `Span.maxOffset`, the largest offset a span may
hold.
-/

namespace TolkAnalysis

/-- The bytes from `start` up to, but not including, `stop`. -/
structure Span where
  start : Nat
  stop : Nat
deriving DecidableEq, Hashable, Inhabited

namespace Span

/-- The largest byte offset: offsets take 32 bits. -/
def maxOffset : Nat := 4294967295

/-- The span between two offsets, each capped at `maxOffset`. -/
def ofRange (start stop : Nat) : Span :=
  ⟨min start maxOffset, min stop maxOffset⟩

/-- The empty span at an offset. -/
def point (offset : Nat) : Span := ⟨offset, offset⟩

/-- Number of bytes covered; a reversed span covers none. -/
def length (s : Span) : Nat := s.stop - s.start

/-- No byte is covered. -/
def isEmpty (s : Span) : Bool := s.stop ≤ s.start

/-- The byte at `offset` is covered. -/
def contains (s : Span) (offset : Nat) : Bool :=
  s.start ≤ offset && offset < s.stop

/-- The ends of `t` lie between the ends of `s`. -/
def containsSpan (s t : Span) : Bool :=
  s.start ≤ t.start && t.stop ≤ s.stop

/-- The least span that covers both. -/
def merge (s t : Span) : Span :=
  ⟨min s.start t.start, max s.stop t.stop⟩

/-- Spans are ordered by their start, then by their end. -/
def order (s t : Span) : Ordering :=
  (compare s.start t.start).then (compare s.stop t.stop)

/-- A span is written as its two ends with two dots between them. -/
def text (s : Span) : String :=
  toString s.start ++ ".." ++ toString s.stop

theorem ofRange_of_le {start stop : Nat} (hs : start ≤ maxOffset) (ht : stop ≤ maxOffset) :
    ofRange start stop = ⟨start, stop⟩ := by
  simp [ofRange, Nat.min_eq_left hs, Nat.min_eq_left ht]

theorem contains_iff {s : Span} {offset : Nat} :
    s.contains offset = true ↔ s.start ≤ offset ∧ offset < s.stop := by
  simp [contains]

theorem isEmpty_iff {s : Span} : s.isEmpty = true ↔ s.length = 0 := by
  simp only [isEmpty, length, decide_eq_true_eq]
  omega

end Span

end TolkAnalysis
