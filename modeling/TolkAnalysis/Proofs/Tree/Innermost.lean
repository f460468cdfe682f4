import TolkAnalysis.Proofs.Grammar.Nested

/-!
# The innermost node at an offset

Going down from a node to the first child that covers an offset never has to be taken back: the
children of a node of a nested tree stand apart, so no other child covers the offset, and neither
does anything below another child. What the descent ends at therefore lies below every node that
covers the offset (`Nested.descend_mem_preorder`), and the nodes that cover the offset are the ones
on the way.

A node may cover just what its parent covers. The innermost of such nodes is the one that lies below
the others: `Tree.Innermost` says this, and `parse_nodeAt?` that the look-up finds it.
-/

namespace TolkAnalysis

namespace Tree

/-- Of the nodes that cover an offset, a node that lies below all of them and stands inside each. -/
structure Innermost (t : Tree) (offset : Nat) (n : Node) : Prop where
  reached : n ∈ t.rootNode.preorder
  contains : n.span.contains offset = true
  below : ∀ m ∈ t.rootNode.preorder, m.span.contains offset = true →
    n ∈ m.preorder ∧ m.span.containsSpan n.span = true

namespace Nested

variable {t : Tree} {n m c d : Node} {offset : Nat}

/-- What covers an offset is covered with it by everything that it lies below. -/
theorem contains_of_mem_preorder (h : t.Nested) (hn : n.tree = t) (hm : m ∈ n.preorder)
    (hoffset : m.span.contains offset = true) : n.span.contains offset = true := by
  have hinside := h.inside_of_mem_preorder hn hm
  simp only [Span.contains, Bool.and_eq_true, decide_eq_true_eq] at hoffset ⊢
  omega

/-- Two children of a node do not cover the same offset. -/
theorem eq_of_contains (h : t.Nested) (hn : n.tree = t) (hc : c ∈ n.children) (hd : d ∈ n.children)
    (hcoffset : c.span.contains offset = true) (hdoffset : d.span.contains offset = true) :
    c = d := by
  by_contra hne
  have hapart := h.apart hn hc hd hne
  simp only [Span.contains, Bool.and_eq_true, decide_eq_true_eq] at hcoffset hdoffset
  omega

/-- The descent from a node that covers an offset ends below each node that covers it. -/
theorem descend_mem_preorder (h : t.Nested) (hn : n.tree = t)
    (hoffset : n.span.contains offset = true) :
    (n.descend offset).span.contains offset = true ∧
      ∀ m ∈ n.preorder, m.span.contains offset = true → n.descend offset ∈ m.preorder := by
  fun_induction Node.descend offset n with
  | case1 n c hc ih =>
      have hmem := List.mem_of_find?_eq_some hc
      have hctree := (Node.tree_of_mem_children hmem).trans hn
      have hcoffset : c.span.contains offset = true := by simpa using List.find?_some hc
      obtain ⟨hend, hbelow⟩ := ih hctree hcoffset
      refine ⟨hend, fun m hm hmoffset => ?_⟩
      rcases Node.mem_preorder_iff.mp hm with rfl | ⟨c', hc', hmc'⟩
      · have hin := hbelow c (Node.mem_preorder_self c) hcoffset
        exact Node.mem_preorder_iff.mpr (.inr ⟨c, hmem, hin⟩)
      · have hc'tree := (Node.tree_of_mem_children hc').trans hn
        have hc'offset := h.contains_of_mem_preorder hc'tree hmc' hmoffset
        obtain rfl := h.eq_of_contains hn hmem hc' hcoffset hc'offset
        exact hbelow m hmc' hmoffset
  | case2 n hnone =>
      refine ⟨hoffset, fun m hm hmoffset => ?_⟩
      rcases Node.mem_preorder_iff.mp hm with rfl | ⟨c, hc, hmc⟩
      · exact Node.mem_preorder_self m
      · have hctree := (Node.tree_of_mem_children hc).trans hn
        have hcoffset := h.contains_of_mem_preorder hctree hmc hmoffset
        exact absurd hcoffset (List.find?_eq_none.mp hnone c hc)

/-- The look-up of an offset that the text has finds a node, and it is the only innermost one. -/
theorem innermost_iff (h : t.Nested) (hn : t.nodeAt? offset = some n) :
    t.Innermost offset m ↔ m = n := by
  obtain ⟨hroot, hdescend⟩ := Option.ite_none_right_eq_some.mp hn
  obtain rfl := Option.some_inj.mp hdescend
  obtain ⟨hend, hbelow⟩ := h.descend_mem_preorder rfl hroot
  have hreached := hbelow t.rootNode (Node.mem_preorder_self _) hroot
  constructor
  · -- Each of the two lies below the other.
    intro hm
    have hnm := hbelow m hm.reached hm.contains
    have hmn := (hm.below _ hreached hend).1
    have htree : m.tree = (t.rootNode.descend offset).tree := Node.tree_of_mem_preorder hmn
    exact Node.eq_of_id_eq htree
      (le_antisymm (Node.id_le_of_mem_preorder hmn) (Node.id_le_of_mem_preorder hnm))
  · rintro rfl
    refine ⟨hreached, hend, fun k hk hkoffset => ?_⟩
    have hin := hbelow k hk hkoffset
    have hktree : k.tree = t := Node.tree_of_mem_preorder (n := t.rootNode) hk
    have hinside := h.inside_of_mem_preorder hktree hin
    exact ⟨hin, by simpa [Span.containsSpan] using hinside⟩

/-- The nodes that cover an offset are the innermost one and its ancestors. -/
theorem contains_iff (h : t.Nested) (hn : t.Innermost offset n) :
    m ∈ t.rootNode.preorder ∧ m.span.contains offset = true ↔ m = n ∨ m ∈ n.ancestors := by
  constructor
  · rintro ⟨hm, hmoffset⟩
    have hmtree : m.tree = t := Node.tree_of_mem_preorder (n := t.rootNode) hm
    by_cases hmn : n = m
    · exact .inl hmn.symm
    · exact .inr (h.mem_ancestors hmtree (hn.below m hm hmoffset).1 hmn)
  · rintro (rfl | hm)
    · exact ⟨hn.reached, hn.contains⟩
    · obtain ⟨hreached, hbelow⟩ := h.mem_preorder_of_mem_ancestors hn.reached hm
      have hmtree : m.tree = t := Node.tree_of_mem_preorder (n := t.rootNode) hreached
      exact ⟨hreached, h.contains_of_mem_preorder hmtree hbelow hn.contains⟩

end Nested

/-- The look-up fails for the offsets that the root does not cover. -/
theorem nodeAt?_eq_none_iff (t : Tree) (offset : Nat) :
    t.nodeAt? offset = none ↔ t.rootNode.span.contains offset = false := by
  unfold nodeAt?
  rw [ite_eq_right_iff]
  simp

end Tree

/-- Inside a statement that breaks off, the innermost node covers the whole statement. -/
example : ((parse 0 0 "fun f() \x7b x = ; \x7d").tree.nodeAt? 12).map (·.kind) = some .error := by
  decide +kernel

end TolkAnalysis
