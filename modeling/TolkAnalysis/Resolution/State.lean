import Std.Data.HashMap

/-!
# The state of a look-up

A look-up carries a few texts by key: the name to look for, when it is not the
name that is written, and whether the name stands before a dot. Extending a
state makes a new one, so a state that is handed to an inner scope never
changes what the outer one sees.
-/

namespace TolkAnalysis

/-- Texts by key. -/
structure LookupState where
  values : Std.HashMap String String

namespace LookupState

/-- The key of the name to look for. -/
def searchNameKey : String := "search-name"

/-- The key of the mark of a name that stands before a dot. -/
def dotQualifierKey : String := "dot-qualifier"

/-- The state without texts. -/
def empty : LookupState := ⟨∅⟩

/-- The state with one text more, or another text for a key. -/
def withValue (s : LookupState) (key value : String) : LookupState :=
  ⟨s.values.insert key value⟩

/-- The text of a key. -/
def get? (s : LookupState) (key : String) : Option String := s.values[key]?

/-- The name to look for, when it is not the name that is written. -/
def searchName? (s : LookupState) : Option String := s.get? searchNameKey

/-- The name stands before a dot. -/
def isDotQualifier (s : LookupState) : Bool := s.get? dotQualifierKey == some "true"

end LookupState

end TolkAnalysis
