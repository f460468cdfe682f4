import TolkAnalysis.Proofs.Tree.Sound

/-!
# The order of nodes

Of two nodes of a sound tree one lies below the other, or one ends before the other
begins (`Nested.below_or_apart`). So everything below a node is listed once, and its
leaves are listed in the order of the text.

Two nodes that begin at the same place lie one below the other. No node that declares
something lies below a node of the same kind: `NodeKind.rank` grows on the way down from
such a node. So a declaring node is told apart by its kind and its start
(`Nested.eq_of_start_eq` and `Sound.eq_of_start_eq`).
-/

namespace TolkAnalysis

namespace NodeKind

/-- How deep a kind of node stands. Expressions and statements nest in each other and
have one rank. -/
def rank : NodeKind → Nat
  | .sourceFile => 0
  | .parameterList | .typeParameterList | .structBody | .enumBody => 2
  | .parameterDeclaration | .typeParameter | .structFieldDeclaration
  | .enumMemberDeclaration => 3
  | .tupleVarsDeclaration | .tensorVarsDeclaration => 5
  | .varDeclaration => 6
  | .identifier | .underscore | .redef => 7
  | kind => if kind.isItem then 1 else if kind.spellsType then 7 else 4

/-- A node of the kind may declare something. -/
def mayDeclare : NodeKind → Bool
  | .functionDeclaration | .getMethodDeclaration | .methodDeclaration | .structDeclaration
  | .structFieldDeclaration | .typeAliasDeclaration | .enumDeclaration | .enumMemberDeclaration
  | .constantDeclaration | .globalVarDeclaration | .parameterDeclaration | .typeParameter
  | .varDeclaration | .identifier | .typeIdentifier => true
  | _ => false

theorem ne_sourceFile_of_mayDeclare {kind : NodeKind} (h : kind.mayDeclare = true) :
    kind ≠ .sourceFile := by
  rintro rfl
  cases h

theorem rank_of_holds {kind child : NodeKind} {slot : Option Field}
    (h : kind.holds slot child = true) :
    kind.rank ≤ child.rank ∧ (kind.mayDeclare = true → kind.rank < child.rank) := by
  have hall : ∀ kind ∈ all, ∀ p ∈ kind.parts, ∀ child ∈ all, p.kinds child = true →
      kind.rank ≤ child.rank ∧ (kind.mayDeclare = true → kind.rank < child.rank) := by
    decide +kernel
  obtain ⟨p, hp, -, hkind⟩ := exists_part_of_holds h
  exact hall kind kind.mem_all p hp child child.mem_all hkind

theorem parts_of_isReferenceLike {kind : NodeKind} (h : kind.isReferenceLike = true) :
    kind.parts = [] := by
  unfold isReferenceLike at h
  split at h
  · rfl
  · rfl
  · cases h

end NodeKind

namespace Tree

/-- A node has a greater rank than the declaring nodes that it lies below. -/
theorem Shaped.rank_lt_of_mem_preorder {t : Tree} {n m : Node} (h : t.Shaped) (hn : n.tree = t)
    (hm : m ∈ n.preorder) (hne : m ≠ n) (hkind : n.kind.mayDeclare = true) :
    n.kind.rank < m.kind.rank := by
  rcases Node.mem_preorder_iff.mp hm with rfl | ⟨c, hc, hmc⟩
  · exact absurd rfl hne
  · obtain ⟨slot, hslot⟩ := Node.exists_slot_of_mem_children hc
    have hctree := (Node.tree_of_mem_children hc).trans hn
    refine lt_of_lt_of_le ((NodeKind.rank_of_holds (h.holds_of_mem_slots hn hslot)).2 hkind) ?_
    refine Node.preorder_induction (P := fun m => c.kind.rank ≤ m.kind.rank) le_rfl
      (fun p hp hle d hd => ?_) m hmc
    obtain ⟨slot', hslot'⟩ := Node.exists_slot_of_mem_children hd
    have hptree := (Node.tree_of_mem_preorder hp).trans hctree
    exact hle.trans (NodeKind.rank_of_holds (h.holds_of_mem_slots hptree hslot')).1

/-- A node that may declare something and covers something is told apart by its kind and its
start. -/
theorem Nested.eq_of_start_eq {t : Tree} {a b : Node} (h : t.Nested) (ha : a ∈ t.rootNode.preorder)
    (hb : b ∈ t.rootNode.preorder) (hkind : a.kind = b.kind) (hdeclares : a.kind.mayDeclare = true)
    (hstart : a.span.start = b.span.start) (hacovers : a.span.start < a.span.stop)
    (hbcovers : b.span.start < b.span.stop) : a = b := by
  have hatree : a.tree = t := Node.tree_of_mem_preorder (n := t.rootNode) ha
  have hbtree : b.tree = t := Node.tree_of_mem_preorder (n := t.rootNode) hb
  rcases h.below_or_apart rfl ha hb with hab | hba | hlt | hlt
  · by_contra hne
    have hrank := h.rank_lt_of_mem_preorder hbtree hab hne (hkind ▸ hdeclares)
    rw [hkind] at hrank
    exact Nat.lt_irrefl _ hrank
  · by_contra hne
    have hrank := h.rank_lt_of_mem_preorder hatree hba (Ne.symm hne) hdeclares
    rw [hkind] at hrank
    exact Nat.lt_irrefl _ hrank
  · omega
  · omega

namespace Sound

variable {t : Tree} {n m c a b : Node}

/-- What lies below a node is listed once. -/
theorem nodup_preorder (h : t.Sound) (hn : n.tree = t) : n.preorder.Nodup := by
  induction n using Node.preorder.induct with
  | case1 n ih =>
      rw [Node.preorder_eq, List.nodup_cons]
      constructor
      · rw [List.mem_flatMap]
        rintro ⟨c, hc, hnc⟩
        exact absurd (Node.id_le_of_mem_preorder hnc)
          (Nat.not_le.mpr (Node.id_lt_of_mem_children hc))
      · rw [List.nodup_flatMap]
        constructor
        · exact fun c hc => ih ⟨c, hc⟩ ((Node.tree_of_mem_children hc).trans hn)
        · refine (h.ordered_children hn).imp_of_mem fun {c d} hc hd hcd => ?_
          refine List.disjoint_left.mpr fun m hmc hmd => ?_
          have hctree := (Node.tree_of_mem_children hc).trans hn
          have hdtree := (Node.tree_of_mem_children hd).trans hn
          have hin := h.nested.inside_of_mem_preorder hctree hmc
          have hin' := h.nested.inside_of_mem_preorder hdtree hmd
          have hcovers := h.covers ((Node.tree_of_mem_preorder hmc).trans hctree)
            (h.shaped.ne_rootNode_of_mem_preorder hn hc hmc)
          omega

/-- The leaves below a node are listed in the order of the text. -/
theorem ordered_leaves (h : t.Sound) (hn : n.tree = t) :
    (n.preorder.filter (·.children.isEmpty)).Pairwise fun a b => a.span.stop ≤ b.span.start := by
  induction n using Node.preorder.induct with
  | case1 n ih =>
      have hbelow : ((n.children.flatMap Node.preorder).filter
          (·.children.isEmpty)).Pairwise fun a b => a.span.stop ≤ b.span.start := by
        rw [List.filter_flatMap, List.pairwise_flatMap]
        constructor
        · exact fun c hc => ih ⟨c, hc⟩ ((Node.tree_of_mem_children hc).trans hn)
        · refine (h.ordered_children hn).imp_of_mem fun {c d} hc hd hcd a ha b hb => ?_
          have hctree := (Node.tree_of_mem_children hc).trans hn
          have hdtree := (Node.tree_of_mem_children hd).trans hn
          have hin := h.nested.inside_of_mem_preorder hctree (List.mem_filter.mp ha).1
          have hin' := h.nested.inside_of_mem_preorder hdtree (List.mem_filter.mp hb).1
          omega
      rw [Node.preorder_eq, List.filter_cons]
      split
      · rename_i hleaf
        rw [List.isEmpty_iff.mp hleaf]
        exact List.pairwise_singleton _ _
      · exact hbelow

/-- The names below a node are listed in the order of the text. -/
theorem ordered_names (h : t.Sound) (hn : n.tree = t) :
    (n.preorder.filter (·.kind.isReferenceLike)).Pairwise
      fun a b => a.span.stop ≤ b.span.start := by
  have hnames : n.preorder.filter (·.kind.isReferenceLike) =
      (n.preorder.filter (·.children.isEmpty)).filter (·.kind.isReferenceLike) := by
    rw [List.filter_filter]
    refine List.filter_congr fun m hm => ?_
    have hleaf : m.kind.isReferenceLike = true → m.children.isEmpty = true := fun hname =>
      List.isEmpty_iff.mpr (h.shaped.children_eq_nil ((Node.tree_of_mem_preorder hm).trans hn)
        (NodeKind.parts_of_isReferenceLike hname))
    cases hname : m.kind.isReferenceLike with
    | true => simp [hleaf hname]
    | false => simp
  rw [hnames]
  exact (h.ordered_leaves hn).filter _

/-- A node that may declare something is told apart by its kind and its start. -/
theorem eq_of_start_eq (h : t.Sound) (ha : a ∈ t.rootNode.preorder)
    (hb : b ∈ t.rootNode.preorder) (hkind : a.kind = b.kind) (hdeclares : a.kind.mayDeclare = true)
    (hstart : a.span.start = b.span.start) : a = b := by
  have hcovers := fun {n : Node} (hn : n ∈ t.rootNode.preorder) (hkind : n.kind.mayDeclare = true) =>
    h.covers (Node.tree_of_mem_preorder (n := t.rootNode) hn)
      (h.shaped.ne_rootNode (NodeKind.ne_sourceFile_of_mayDeclare hkind))
  exact h.nested.eq_of_start_eq ha hb hkind hdeclares hstart (hcovers ha hdeclares)
    (hcovers hb (hkind ▸ hdeclares))

end Sound

end Tree

end TolkAnalysis
