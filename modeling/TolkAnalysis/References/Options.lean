/-!
# Options of a search for references

A search may put the name of the declaration first, leave out `self`, stay in
the file of the declaration and stop at a number of results. It is refused if
it has been cancelled or if its time is over.

No clock runs during a search, so the only time limit that is ever over is one of
zero. It is over at once.
-/

namespace TolkAnalysis

/-- How to search for the uses of a declaration. -/
structure ReferenceOptions where
  /-- Put the name of the declaration first. -/
  includeDefinition : Bool := false
  /-- A name `self` may be a use. -/
  includeSelf : Bool := true
  /-- Search the file of the declaration only. -/
  sameFileOnly : Bool := false
  /-- Stop after so many results. -/
  limit : Option Nat := none
  /-- The time limit in milliseconds, in place of that of the session. -/
  timeout : Option Nat := none
  /-- The search has been cancelled. -/
  cancelled : Bool := false
deriving DecidableEq, Inhabited

/-- Why a search ended without results. -/
inductive SearchError where
  | cancelled
  | timedOut
deriving DecidableEq

/-- The wording of the reason. -/
def SearchError.message : SearchError → String
  | .cancelled => "search cancelled"
  | .timedOut => "search timed out after 0ns"

namespace ReferenceOptions

/-- The reason to end a search now, where the session has a time limit of its
own. -/
def interruption? (o : ReferenceOptions) (timeout : Option Nat) : Option SearchError :=
  if o.cancelled then some .cancelled
  else if o.timeout.or timeout = some 0 then some .timedOut
  else none

/-- So many results are enough. -/
def isFull (o : ReferenceOptions) (found : Nat) : Bool :=
  o.limit.any fun limit => decide (limit ≤ found)

end ReferenceOptions

end TolkAnalysis
