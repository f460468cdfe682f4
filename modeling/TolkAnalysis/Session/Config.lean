/-!
# Settings of a session

A session is set up by a record of settings, which a client may send as a list
of keys and values. A key that is missing has its default and a key that is not
known is ignored; a value of the wrong form makes the whole list invalid.
-/

namespace TolkAnalysis

/-- The settings of a session. -/
structure SessionConfig where
  /-- The directory of the standard library. -/
  stdlibRoot : Option String := none
  /-- Builtin types are declared in a file of their own. -/
  loadStubs : Bool := true
  /-- The longest time for finding references, in milliseconds. -/
  referenceTimeout : Option Nat := none
deriving DecidableEq, Inhabited

/-- A value that a client sends for a key. -/
inductive Setting where
  | null
  | flag (value : Bool)
  | number (value : Nat)
  | text (value : String)
  /-- A value of any other form. -/
  | other
deriving DecidableEq

namespace Setting

/-- A text, or nothing for null. -/
def text? : Setting → Option (Option String)
  | .text s => some (some s)
  | .null => some none
  | _ => none

/-- A flag. -/
def flag? : Setting → Option Bool
  | .flag b => some b
  | _ => none

/-- A number of at most 64 bits, or nothing for null. -/
def number? : Setting → Option (Option Nat)
  | .number n => if n < UInt64.size then some (some n) else none
  | .null => some none
  | _ => none

end Setting

namespace SessionConfig

/-- Changes what a key stands for, if its value has the right form. -/
def set? (config : SessionConfig) (key : String) (value : Setting) : Option SessionConfig :=
  if key = "stdlibRoot" then
    value.text?.map fun root => { config with stdlibRoot := root }
  else if key = "loadStubs" then
    value.flag?.map fun load => { config with loadStubs := load }
  else if key = "referenceTimeoutMs" then
    value.number?.map fun timeout => { config with referenceTimeout := timeout }
  else some config

/-- The settings that a list of keys and values stands for. -/
def ofSettings? (settings : List (String × Setting)) : Option SessionConfig :=
  settings.foldlM (fun config entry => config.set? entry.1 entry.2) {}

end SessionConfig

end TolkAnalysis
