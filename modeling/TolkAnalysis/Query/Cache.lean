import Std.Data.HashMap
import Std.Data.HashSet

/-!
# Memo tables

A memo table remembers the answer to each request, also that there is none. A
request that is asked again while its own answer is being computed is in
flight: it gets no answer, and that is not remembered, so the outer computation
still stores what it finds. Clearing a table forgets all answers and leaves
alone what is in flight.

A table may be one part of a larger state. `Part` says how to read and change
it there.
-/

namespace TolkAnalysis

/-- Answers by key, and the keys that are being computed. -/
structure QueryCache (κ α : Type) [BEq κ] [Hashable κ] where
  values : Std.HashMap κ (Option α)
  inFlight : Std.HashSet κ

namespace QueryCache

variable {κ α σ : Type} [BEq κ] [Hashable κ]

/-- The table without answers. -/
def empty : QueryCache κ α := ⟨∅, ∅⟩

instance : Inhabited (QueryCache κ α) := ⟨empty⟩

/-- Number of remembered answers. -/
def size (c : QueryCache κ α) : Nat := c.values.size

/-- No answer is remembered. -/
def isEmpty (c : QueryCache κ α) : Bool := c.values.isEmpty

/-- Forgets all answers. -/
def clear (c : QueryCache κ α) : QueryCache κ α := { c with values := ∅ }

/-- Marks a key as being computed. -/
def enter (c : QueryCache κ α) (key : κ) : QueryCache κ α :=
  { c with inFlight := c.inFlight.insert key }

/-- Remembers the answer for a key, which is no longer being computed. -/
def leave (c : QueryCache κ α) (key : κ) (value : Option α) : QueryCache κ α :=
  { values := c.values.insert key value, inFlight := c.inFlight.erase key }

/-- What a table knows about a key: the remembered answer, none for a key that
is in flight, or nothing yet. -/
def find? (c : QueryCache κ α) (key : κ) : Option (Option α) :=
  match c.values[key]? with
  | some value => some value
  | none => if c.inFlight.contains key then some none else none

/-- How a memo table is read and changed as a part of a state. -/
structure Part (σ κ α : Type) [BEq κ] [Hashable κ] where
  get : σ → QueryCache κ α
  modify : (QueryCache κ α → QueryCache κ α) → σ → σ

/-- A table that is the whole state. -/
def Part.whole : Part (QueryCache κ α) κ α := ⟨id, id⟩

/-- The remembered answer for a key, or else the computed one, which is then
remembered. A key that is in flight has no answer. -/
def getOrCompute (part : Part σ κ α) (key : κ) (compute : StateM σ (Option α)) :
    StateM σ (Option α) := fun s =>
  match (part.get s).find? key with
  | some value => (value, s)
  | none =>
      let (value, s') := compute (part.modify (·.enter key) s)
      (value, part.modify (·.leave key value) s')

end QueryCache

end TolkAnalysis
