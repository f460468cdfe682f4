import TolkAnalysis.Query.Cache

/-!
# Scripts of requests

A script is a list of requests to a memo table, each with the requests that its
computation makes before it ends and the answer that it ends with. Running a
script shows when a computation runs at all, what it answers and how much the
table remembers after every step.
-/

namespace TolkAnalysis

/-- A request to a memo table. -/
inductive CacheRequest (κ α : Type) where
  | clear
  /-- Asks for a key whose computation makes the requests `inner` and then
  answers `value`. -/
  | get (key : κ) (value : Option α) (inner : List (CacheRequest κ α))

/-- What a request is answered. -/
inductive CacheReport (α : Type) where
  | cleared (size : Nat)
  /-- The answer, what the inner requests were answered if they were made, and
  the number of answers that are remembered now. -/
  | got (result : Option α) (inner : Option (List (CacheReport α))) (size : Nat)

namespace CacheRequest

variable {κ α : Type} [BEq κ] [Hashable κ]

mutual

/-- Makes one request. -/
def run (c : QueryCache κ α) : CacheRequest κ α → CacheReport α × QueryCache κ α
  | .clear => (.cleared c.clear.size, c.clear)
  | .get key value inner =>
      match c.find? key with
      | some result => (.got result none c.size, c)
      | none =>
          let (reports, c') := runAll (c.enter key) inner
          let c'' := c'.leave key value
          (.got value (some reports) c''.size, c'')

/-- Makes requests one after another. -/
def runAll (c : QueryCache κ α) : List (CacheRequest κ α) → List (CacheReport α) × QueryCache κ α
  | [] => ([], c)
  | r :: rs =>
      let (report, c') := run c r
      let (reports, c'') := runAll c' rs
      (report :: reports, c'')

end

end CacheRequest

end TolkAnalysis
