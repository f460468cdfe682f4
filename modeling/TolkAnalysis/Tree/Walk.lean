import TolkAnalysis.Tree.Basic

/-!
# Walks

A walk visits a node and what lies below it, every node before its children
and children from left to right. The visitor carries a state and decides at
each node whether to go on below it, to skip what is below it, or to end the
walk. The nodes still to be visited are kept on a stack, so the depth of a tree
does not limit a walk; each step takes from the stack as much as `Node.weight`
counts.
-/

namespace TolkAnalysis

/-- What to do after visiting a node. -/
inductive Step where
  | goOn
  | skipChildren
  | stop
deriving DecidableEq, Inhabited

namespace Node

/-- Number of visits that a full walk from a node makes. -/
def weight (n : Node) : Nat :=
  1 + n.children.attach.foldr (fun c total => c.1.weight + total) 0
termination_by n.id
decreasing_by exact id_lt_of_mem_children c.2

/-- Number of visits that full walks from the nodes of a list make. -/
def weights (ns : List Node) : Nat := ns.foldr (fun n total => n.weight + total) 0

theorem weight_eq (n : Node) : n.weight = 1 + weights n.children := by
  rw [weight, List.foldr_attach (f := fun n total => weight n + total), weights]

theorem weights_cons (n : Node) (ns : List Node) : weights (n :: ns) = n.weight + weights ns := rfl

theorem weights_append (ms ns : List Node) : weights (ms ++ ns) = weights ms + weights ns := by
  induction ms with
  | nil => simp [weights]
  | cons m ms ih => rw [List.cons_append, weights_cons, weights_cons, ih, Nat.add_assoc]

/-- Walks over the nodes of a stack and what lies below them. The answer says
whether the visitor ended the walk, and holds its last state. -/
def walkStack {σ : Type} (visit : σ → Node → Step × σ) : List Node → σ → Bool × σ
  | [], s => (false, s)
  | n :: stack, s =>
      match visit s n with
      | (.stop, s') => (true, s')
      | (.skipChildren, s') => walkStack visit stack s'
      | (.goOn, s') => walkStack visit (n.children ++ stack) s'
termination_by stack => weights stack
decreasing_by
  · rw [weights_cons, weight_eq]
    omega
  · rw [weights_cons, weights_append, weight_eq]
    omega

/-- Walks over a node and what lies below it. -/
def walk {σ : Type} (visit : σ → Node → Step × σ) (n : Node) (s : σ) : Bool × σ :=
  walkStack visit [n] s

end Node

end TolkAnalysis
