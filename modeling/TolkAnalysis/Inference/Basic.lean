import TolkAnalysis.Query.Basic
import TolkAnalysis.Session.Workspace

/-!
# Finding types

The rules that find types ask about other nodes. A rule has no answer as soon
as a part that it needs has none; only inside a composite type is an element
without a type taken as `unknown`, so that it does not hide the others.
-/

namespace TolkAnalysis

/-- What the rules for types know. -/
structure Inference where
  workspace : Workspace

namespace Inference

/-- The type of a node. -/
def infer (_ : Inference) (n : Node) : Attempt Ty := .ofQuery (.typeOf n)

/-- The declaration that a node refers to. -/
def resolve (_ : Inference) (n : Node) : Attempt Decl := .ofQuery (.reference n)

/-- The type of a node, or `unknown`. -/
def inferOrUnknown (i : Inference) (n : Node) : Attempt Ty := (i.infer n).getD .unknown

/-- The type of the child in a slot. -/
def inferChild (i : Inference) (n : Node) (slot : Field) : Attempt Ty := do
  i.infer (← .ofOption (n.child? slot))

/-- The types of the children, `unknown` for a child without one. -/
def inferChildren (i : Inference) (n : Node) : Attempt (List Ty) :=
  n.children.mapM i.inferOrUnknown

/-- The types of those nodes of a list that have one. -/
def inferSome (i : Inference) : List Node → Attempt (List Ty)
  | [] => pure []
  | n :: ns => do
      let t ← (i.infer n).answer?
      let ts ← i.inferSome ns
      return t.toList ++ ts

end Inference

end TolkAnalysis
