import TolkAnalysis.Inference.Infer
import TolkAnalysis.Resolution.Resolve

/-!
# The oracle of a workspace

What a node refers to may depend on types, and types on what nodes refer to, so
the two questions answer each other: every answer is computed by the rules from
the answers to further questions, and remembered.

A question that asks itself again gets no answer, so a chain of questions never
holds a question twice. There are two questions for each node that was ever
read, and `Workspace.depth` counts them with one step to spare; a chain cannot
be longer.
-/

namespace TolkAnalysis

namespace Workspace

mutual

/-- What a node refers to, by a chain of questions of bounded length. -/
def resolveWithin (w : Workspace) (depth : Nat) (n : Node) : StateM Caches (Option Decl) :=
  match depth with
  | 0 => pure none
  | depth + 1 =>
      QueryCache.getOrCompute Caches.resolvePart n.key
        ((Resolution.first w n).run ⟨w.resolveWithin depth, w.inferWithin depth⟩)

/-- The type of a node, by a chain of questions of bounded length. -/
def inferWithin (w : Workspace) (depth : Nat) (n : Node) : StateM Caches (Option Ty) :=
  match depth with
  | 0 => pure none
  | depth + 1 =>
      QueryCache.getOrCompute Caches.typesPart n.key
        ((Inference.nodeType ⟨w⟩ n).run.run ⟨w.resolveWithin depth, w.inferWithin depth⟩)

end

/-- More than the length of the longest chain of questions. -/
def depth (w : Workspace) : Nat := 2 * w.loaded + 1

/-- The two questions, answered by the rules. -/
def oracle (w : Workspace) : Oracle where
  resolve := w.resolveWithin w.depth
  infer := w.inferWithin w.depth

end Workspace

end TolkAnalysis
