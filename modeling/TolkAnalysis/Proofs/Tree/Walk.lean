import TolkAnalysis.Proofs.Tree.Node
import TolkAnalysis.Tree.Walk

/-!
# A walk follows the tree

`Node.course` says what a walk does by recursion on the tree: it visits a node and then, unless the
visitor ends the walk or skips what is below the node, goes through the children from left to right,
each with everything below it. What the visitor has ended stays ended, all the way up.

`Node.walk` keeps a stack instead. What it finds on the stack is what the recursion still has to go
through (`walkStack_append`), so the two make the same visits in the same order with the same states
(`walk_eq_course`). If the visitor always goes on, the visits are those of `Node.preorder`.
-/

namespace TolkAnalysis

/-- What a walk has done: the nodes it has visited, in order, whether the visitor has ended it, and
the last state of the visitor. -/
structure Course (σ : Type) where
  visited : List Node
  stopped : Bool
  state : σ

namespace Course

variable {σ : Type}

/-- Goes on from the last state, unless the walk has been ended. -/
def andThen (c : Course σ) (next : σ → Course σ) : Course σ :=
  if c.stopped then c
  else ⟨c.visited ++ (next c.state).visited, (next c.state).stopped, (next c.state).state⟩

/-- What is left to do when the nodes in `seen` have been visited before: nothing if the walk has
been ended, and else to go on. -/
def followedBy (c : Course σ) (seen : List Node)
    (next : σ × List Node → Bool × σ × List Node) : Bool × σ × List Node :=
  if c.stopped then (true, c.state, seen ++ c.visited) else next (c.state, seen ++ c.visited)

theorem followedBy_andThen (c : Course σ) (later : σ → Course σ) (seen : List Node)
    (next : σ × List Node → Bool × σ × List Node) :
    (c.andThen later).followedBy seen next =
      c.followedBy seen fun p => (later p.1).followedBy p.2 next := by
  cases hstopped : c.stopped <;> simp [andThen, followedBy, hstopped, List.append_assoc]

end Course

namespace Node

theorem weights_children_lt (n : Node) : weights n.children < n.weight := by
  rw [weight_eq]
  omega

theorem weights_lt_weights_cons (n : Node) (ns : List Node) : weights ns < weights (n :: ns) := by
  rw [weights_cons, weight_eq]
  omega

/-- A node alone comes before a list that it is the first of. -/
theorem weight_lex_weights_cons (n : Node) (ns : List Node) :
    Prod.Lex (· < ·) (· < ·) (n.weight, 0) (weights (n :: ns), 1) := by
  rw [weights_cons]
  rcases Nat.eq_zero_or_pos (weights ns) with h | h
  · rw [h]
    exact Prod.Lex.right _ Nat.zero_lt_one
  · exact Prod.Lex.left _ _ (Nat.lt_add_of_pos_right h)

variable {σ : Type}

mutual

/-- Visits a node and what lies below it. -/
def course (visit : σ → Node → Step × σ) (n : Node) (s : σ) : Course σ :=
  match visit s n with
  | (.stop, s') => ⟨[n], true, s'⟩
  | (.skipChildren, s') => ⟨[n], false, s'⟩
  | (.goOn, s') => Course.andThen ⟨[n], false, s'⟩ fun s => courseAll visit n.children s
termination_by (weight n, 0)
decreasing_by exact Prod.Lex.left _ _ (weights_children_lt n)

/-- Visits nodes from left to right, each with what lies below it. -/
def courseAll (visit : σ → Node → Step × σ) (ns : List Node) (s : σ) : Course σ :=
  match ns with
  | [] => ⟨[], false, s⟩
  | n :: ns => (course visit n s).andThen fun s => courseAll visit ns s
termination_by (weights ns, 1)
decreasing_by
  · exact weight_lex_weights_cons n ns
  · exact Prod.Lex.left _ _ (weights_lt_weights_cons n ns)

end

/-- The visitor that also notes which nodes it visits. -/
def noting (visit : σ → Node → Step × σ) (s : σ × List Node) (n : Node) : Step × σ × List Node :=
  ((visit s.1 n).1, (visit s.1 n).2, s.2 ++ [n])

section

variable (visit : σ → Node → Step × σ)

/-- Noting the visits changes neither the flag nor the states. -/
theorem walkStack_noting (stack : List Node) (s : σ) (seen : List Node) :
    (walkStack (noting visit) stack (s, seen)).1 = (walkStack visit stack s).1 ∧
      (walkStack (noting visit) stack (s, seen)).2.1 = (walkStack visit stack s).2 := by
  fun_induction walkStack visit stack s generalizing seen with
  | case1 s => simp [walkStack]
  | case2 s n stack s' h => simp [walkStack, noting, h]
  | case3 s n stack s' h ih => simp [walkStack, noting, h, ih]
  | case4 s n stack s' h ih => simp [walkStack, noting, h, ih]

mutual

/-- A node on top of the stack is walked over before what lies under it on the stack. -/
theorem walkStack_cons (n : Node) (rest : List Node) (s : σ) (seen : List Node) :
    walkStack (noting visit) (n :: rest) (s, seen) =
      (course visit n s).followedBy seen (walkStack (noting visit) rest) := by
  rw [walkStack, course, noting]
  cases hvisit : visit s n with
  | mk step s' =>
    cases step with
    | stop => rfl
    | skipChildren => rfl
    | goOn =>
      rw [Course.followedBy_andThen]
      exact walkStack_append n.children rest s' (seen ++ [n])
termination_by (weight n, 0)
decreasing_by exact Prod.Lex.left _ _ (weights_children_lt n)

/-- Nodes on top of the stack are walked over before what lies under them on the stack. -/
theorem walkStack_append (ns rest : List Node) (s : σ) (seen : List Node) :
    walkStack (noting visit) (ns ++ rest) (s, seen) =
      (courseAll visit ns s).followedBy seen (walkStack (noting visit) rest) := by
  match ns with
  | [] => simp [courseAll, Course.followedBy]
  | n :: ns =>
    rw [List.cons_append, walkStack_cons n (ns ++ rest) s seen, courseAll,
      Course.followedBy_andThen]
    congr 1
    funext p
    exact walkStack_append ns rest p.1 p.2
termination_by (weights ns, 1)
decreasing_by
  · exact weight_lex_weights_cons n ns
  · exact Prod.Lex.left _ _ (weights_lt_weights_cons n ns)

end

/-- A visitor that always goes on visits all that lies below a node, every node before its
children. -/
theorem visited_course_of_goOn (hgo : ∀ s n, (visit s n).1 = .goOn) (n : Node) (s : σ) :
    (course visit n s).stopped = false ∧ (course visit n s).visited = n.preorder := by
  induction n using preorder.induct generalizing s with
  | case1 n ih =>
    have hall : ∀ cs, (∀ c ∈ cs, c ∈ n.children) → ∀ s,
        (courseAll visit cs s).stopped = false ∧
          (courseAll visit cs s).visited = cs.flatMap preorder := by
      intro cs hcs
      induction cs with
      | nil => simp [courseAll]
      | cons c cs ihcs =>
        rw [List.forall_mem_cons] at hcs
        intro s
        obtain ⟨hstopped, hvisited⟩ := ih ⟨c, hcs.1⟩ s
        obtain ⟨hstopped', hvisited'⟩ := ihcs hcs.2 (course visit c s).state
        simp [courseAll, Course.andThen, hstopped, hvisited, hstopped', hvisited']
    have hstep : visit s n = (.goOn, (visit s n).2) := Prod.ext (hgo s n) rfl
    obtain ⟨hstopped, hvisited⟩ := hall n.children (fun _ hc => hc) (visit s n).2
    rw [course, hstep, preorder_eq]
    simp [Course.andThen, hstopped, hvisited]

/-- A walk makes the visits of the recursion, in the same order, and ends with the same flag and
the same state of the visitor. -/
theorem walk_eq_course (n : Node) (s : σ) :
    walk visit n s = ((course visit n s).stopped, (course visit n s).state) ∧
      walk (noting visit) n (s, []) =
        ((course visit n s).stopped, (course visit n s).state, (course visit n s).visited) := by
  have hnoting : walk (noting visit) n (s, []) =
      ((course visit n s).stopped, (course visit n s).state, (course visit n s).visited) := by
    rw [walk, walkStack_cons, Course.followedBy]
    cases hstopped : (course visit n s).stopped <;> simp [walkStack]
  obtain ⟨hflag, hstate⟩ := walkStack_noting visit [n] s []
  refine ⟨?_, hnoting⟩
  rw [walk] at hnoting
  rw [hnoting] at hflag hstate
  exact Prod.ext hflag.symm hstate.symm

end

end Node

end TolkAnalysis
