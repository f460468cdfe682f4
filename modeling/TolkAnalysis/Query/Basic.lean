import TolkAnalysis.Query.Cache
import TolkAnalysis.Ty.Basic

/-!
# Queries

A session is asked two questions about a node: what it refers to, and which
type it has. Each needs the other, since a member is looked for in the type of
the object before it and a name has the type of what it refers to. So the rules
for either question are queries: computations that ask further questions on the
way to their answer.

A query does not say how its questions are answered. `Query.run` has them
answered by an `Oracle`, which may look into memo tables and fill them.
-/

namespace TolkAnalysis

/-- The memo tables of a session. -/
structure Caches where
  resolve : QueryCache NodeKey Decl
  types : QueryCache NodeKey Ty

namespace Caches

/-- Tables without answers. -/
def empty : Caches := ⟨.empty, .empty⟩

instance : Inhabited Caches := ⟨empty⟩

/-- Forgets all answers. -/
def clear (c : Caches) : Caches := ⟨c.resolve.clear, c.types.clear⟩

/-- The table of what nodes refer to. -/
def resolvePart : QueryCache.Part Caches NodeKey Decl where
  get := (·.resolve)
  modify f c := { c with resolve := f c.resolve }

/-- The table of the types of nodes. -/
def typesPart : QueryCache.Part Caches NodeKey Ty where
  get := (·.types)
  modify f c := { c with types := f c.types }

end Caches

/-- A computation that asks questions about nodes. -/
inductive Query (α : Type) : Type where
  | answer (a : α)
  /-- Asks which declaration a node refers to. -/
  | resolve (n : Node) (next : Option Decl → Query α)
  /-- Asks which type a node has. -/
  | infer (n : Node) (next : Option Ty → Query α)

namespace Query

variable {α β : Type}

/-- Goes on with the answer of a query. -/
def bind : Query α → (α → Query β) → Query β
  | .answer a, f => f a
  | .resolve n next, f => .resolve n fun d => (next d).bind f
  | .infer n next, f => .infer n fun t => (next t).bind f

instance : Monad Query where
  pure := .answer
  bind := bind

/-- The declaration that a node refers to. -/
def reference (n : Node) : Query (Option Decl) := .resolve n .answer

/-- The type of a node. -/
def typeOf (n : Node) : Query (Option Ty) := .infer n .answer

end Query

/-- The two questions about a node, answered with a look into the memo tables. -/
structure Oracle where
  /-- The declaration that a node refers to. -/
  resolve : Node → StateM Caches (Option Decl)
  /-- The type of a node. -/
  infer : Node → StateM Caches (Option Ty)

/-- The answer of a query whose questions an oracle answers, one after another. -/
def Query.run {α : Type} (ask : Oracle) : Query α → StateM Caches α
  | .answer a => pure a
  | .resolve n next => do (next (← ask.resolve n)).run ask
  | .infer n next => do (next (← ask.infer n)).run ask

/-- A query that may have no answer. -/
abbrev Attempt := OptionT Query

namespace Attempt

/-- The answer of a query. -/
def ofQuery {α : Type} (q : Query (Option α)) : Attempt α := OptionT.mk q

/-- An answer that needs no query. -/
def ofOption {α : Type} (a : Option α) : Attempt α := OptionT.mk (pure a)

/-- The answer, or that there is none. -/
def answer? {α : Type} (a : Attempt α) : Attempt (Option α) := OptionT.lift a.run

/-- The answer, or a given one if there is none. -/
def getD {α : Type} (a : Attempt α) (default : α) : Attempt α := do
  return (← a.answer?).getD default

end Attempt

end TolkAnalysis
