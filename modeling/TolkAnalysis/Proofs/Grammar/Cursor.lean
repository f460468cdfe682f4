import Mathlib.Logic.Function.Iterate
import TolkAnalysis.Grammar.Parser
import TolkAnalysis.Proofs.Token.Layout

/-!
# Places between tokens

A cursor is `Laid` in a text when its tokens stand there in order, after the token read last.
`c.Reads c'` says that `c'` is reached from `c` by reading tokens. Reading only goes forward,
and a place that differs from where reading began lies behind at least one whole token.
-/

namespace TolkAnalysis

namespace Cursor

/-- Where the token read last ends, and zero before any token is read. -/
def readTo (c : Cursor) : Nat := (c.previous.map (·.span.stop)).getD 0

/-- The tokens of a place stand in a text, after what has been read. -/
structure Laid (text : String) (c : Cursor) : Prop where
  rest : Token.Laid text c.readTo c.rest
  previous : ∀ t, c.previous = some t → Text.IsBoundary text t.span.stop

/-- A place is reached by reading tokens. -/
def Reads (c c' : Cursor) : Prop := ∃ n, advance^[n] c = c'

theorem Reads.refl (c : Cursor) : c.Reads c := ⟨0, rfl⟩

theorem Reads.trans {a b c : Cursor} (hab : a.Reads b) (hbc : b.Reads c) : a.Reads c := by
  obtain ⟨n, rfl⟩ := hab
  obtain ⟨m, rfl⟩ := hbc
  exact ⟨m + n, Function.iterate_add_apply advance m n a⟩

theorem reads_advance (c : Cursor) : c.Reads c.advance := ⟨1, rfl⟩

variable {text : String} {c c' : Cursor}

theorem kindAt_zero (c : Cursor) : c.kindAt 0 = c.current.kind := by
  cases h : c.rest with
  | nil => simp [kindAt, current, h, Token.endOfFile]
  | cons t rest => simp [kindAt, current, h]

theorem current_kind_eq_of_isAt {kind : TokenKind} (h : c.isAt kind = true) :
    c.current.kind = kind := by
  simpa [isAt] using h

theorem isAt_of_isAtWord {word : String} (h : c.isAtWord word = true) : c.isAt .ident = true := by
  simp only [isAtWord, Bool.and_eq_true] at h
  exact h.1

/-- Unless the file ends, the next token is read. -/
theorem advance_eq (h : c.current.kind ≠ .endOfFile) :
    ∃ rest, c.rest = c.current :: rest ∧ c.advance = ⟨some c.current, rest⟩ := by
  cases hrest : c.rest with
  | nil => simp [current, hrest, Token.endOfFile] at h
  | cons t rest =>
    have hcurrent : c.current = t := by simp [current, hrest]
    rw [hcurrent] at h ⊢
    exact ⟨rest, rfl, by simp [advance, hrest, h]⟩

/-- At the end of the file nothing is read. -/
theorem advance_eq_self (h : c.current.kind = .endOfFile) : c.advance = c := by
  cases hrest : c.rest with
  | nil => simp [advance, hrest]
  | cons t rest =>
    have hcurrent : c.current = t := by simp [current, hrest]
    rw [hcurrent] at h
    simp [advance, hrest, h]

theorem kindAt_advance (h : c.current.kind ≠ .endOfFile) (i : Nat) :
    c.advance.kindAt i = c.kindAt (i + 1) := by
  obtain ⟨rest, hrest, hadvance⟩ := advance_eq h
  rw [hadvance]
  simp [kindAt, hrest]

namespace Laid

/-- The next token begins at a boundary, after what has been read. -/
theorem start (h : c.Laid text) :
    c.readTo ≤ c.start ∧ Text.IsBoundary text c.start := by
  have hlaid := h.rest
  generalize hrest : c.rest = tokens at hlaid
  cases hlaid with
  | @last _ t _ hspan hle =>
    have hstart : c.start = text.utf8ByteSize := by
      simp [Cursor.start, current, hrest, hspan, Span.point]
    exact hstart ▸ ⟨hle, Text.isBoundary_size text⟩
  | @cons _ t rest _ hle _ hstart _ _ =>
    have hcurrent : c.start = t.span.start := by simp [Cursor.start, current, hrest]
    exact hcurrent ▸ ⟨hle, hstart⟩

theorem previousStop_le_start (h : c.Laid text) : c.previousStop ≤ c.start := by
  have hle := h.start.1
  unfold previousStop
  unfold readTo at hle
  cases hprevious : c.previous with
  | none => simp
  | some t => simpa [hprevious] using hle

/-- A token that is read covers whole characters, from where reading begins to what has been
read then. -/
theorem current_span (h : c.Laid text) (hkind : c.current.kind ≠ .endOfFile) :
    c.start < c.advance.previousStop ∧ c.current.span = ⟨c.start, c.advance.previousStop⟩ ∧
      Text.IsBoundary text c.advance.previousStop := by
  obtain ⟨rest, hrest, hadvance⟩ := advance_eq hkind
  have hlaid := h.rest
  rw [hrest] at hlaid
  have hstop : c.advance.previousStop = c.current.span.stop := by simp [hadvance, previousStop]
  rw [hstop]
  cases hlaid with
  | last hend _ _ => exact absurd hend hkind
  | cons _ _ hlt _ hstopBoundary _ => exact ⟨hlt, rfl, hstopBoundary⟩

theorem advance (h : c.Laid text) : c.advance.Laid text := by
  by_cases hkind : c.current.kind = .endOfFile
  · rwa [advance_eq_self hkind]
  · obtain ⟨rest, hrest, hadvance⟩ := advance_eq hkind
    have hlaid := h.rest
    rw [hrest] at hlaid
    rw [hadvance]
    cases hlaid with
    | last hend _ _ => exact absurd hend hkind
    | cons _ _ _ _ hstop hlater =>
      refine ⟨hlater, ?_⟩
      rintro t ht
      cases ht
      exact hstop

theorem reads (h : c.Laid text) (hreads : c.Reads c') : c'.Laid text := by
  obtain ⟨n, rfl⟩ := hreads
  induction n with
  | zero => exact h
  | succ n ih =>
    rw [Function.iterate_succ_apply']
    exact ih.advance

/-- What reading one token changes: nothing at the end of the file, and otherwise one token
less is left. -/
theorem advance_forward (h : c.Laid text) :
    c.previousStop ≤ c.advance.previousStop ∧ c.start ≤ c.advance.start ∧
      c.advance.rest.length ≤ c.rest.length := by
  by_cases hkind : c.current.kind = .endOfFile
  · rw [advance_eq_self hkind]
    exact ⟨le_rfl, le_rfl, le_rfl⟩
  · obtain ⟨rest, hrest, hadvance⟩ := advance_eq hkind
    have hlt := (h.current_span hkind).1
    have hprevious := h.previousStop_le_start
    have hnext := h.advance.previousStop_le_start
    refine ⟨by omega, by omega, ?_⟩
    rw [hadvance, hrest]
    simp

/-- Reading goes forward. -/
theorem forward (h : c.Laid text) (hreads : c.Reads c') :
    c.previousStop ≤ c'.previousStop ∧ c.start ≤ c'.start ∧ c'.rest.length ≤ c.rest.length := by
  obtain ⟨n, rfl⟩ := hreads
  induction n with
  | zero => exact ⟨le_rfl, le_rfl, le_rfl⟩
  | succ n ih =>
    rw [Function.iterate_succ_apply']
    have hstep := (h.reads ⟨n, rfl⟩).advance_forward
    exact ⟨ih.1.trans hstep.1, ih.2.1.trans hstep.2.1, hstep.2.2.trans ih.2.2⟩

/-- A place reached by reading is where reading began, or at least one token has been read. -/
theorem eq_or_moved (h : c.Laid text) (hreads : c.Reads c') :
    c' = c ∨ c.start < c'.previousStop ∧ c'.rest.length < c.rest.length := by
  obtain ⟨n, rfl⟩ := hreads
  cases n with
  | zero => exact .inl rfl
  | succ n =>
    by_cases hkind : c.current.kind = .endOfFile
    · left
      exact Function.iterate_fixed (advance_eq_self hkind) (n + 1)
    · right
      obtain ⟨rest, hrest, hadvance⟩ := advance_eq hkind
      have hlater := h.advance.forward ⟨n, rfl⟩
      rw [Function.iterate_succ_apply]
      refine ⟨lt_of_lt_of_le (h.current_span hkind).1 hlater.1, ?_⟩
      have hlength : c.advance.rest.length < c.rest.length := by rw [hadvance, hrest]; simp
      exact lt_of_le_of_lt hlater.2.2 hlength

/-- Once a token has been read, what has been read ends at a boundary. -/
theorem boundary_previousStop (h : c.Laid text) : Text.IsBoundary text c.previousStop := by
  unfold previousStop
  cases hprevious : c.previous with
  | none => simpa using h.start.2
  | some t => simpa using h.previous t hprevious

end Laid

end Cursor

end TolkAnalysis
