import Mathlib.Data.List.Pairwise
import TolkAnalysis.Proofs.Tree.Place

/-!
# Sound trees

A tree is `Sound` when its root stands last, covers the whole text and stands above its
children, and every other stored node is grown in the text. Then a node is the parent of its
children, the children stand one after the other inside it, and the text between their ends is
their own.

`Tree.WellFormed` says this for the nodes that are reached from the root, in terms of nodes
alone.
-/

namespace TolkAnalysis

namespace Tree

/-- The root covers the whole text, and every node stands above its children. -/
structure Sound (t : Tree) : Prop where
  last : t.root + 1 = t.size
  parent : t.rootNode.data.parent = none
  kind : t.rootNode.kind = .sourceFile
  span : t.rootNode.span = ⟨0, t.source.utf8ByteSize⟩
  row : t.arena.Row (some t.root) 0 t.source.utf8ByteSize t.rootNode.data.children
  shape : Fits t.rootNode.kind.parts (t.arena.entries t.rootNode.data.children)
  grown : ∀ i data, t.arena.node? i = some data → i ≠ t.root → t.arena.Grown t.source i data

/-- The nodes reached from the root make up a tree that covers the text. -/
structure WellFormed (t : Tree) : Prop where
  last : t.root + 1 = t.size
  root_span : t.rootNode.span = ⟨0, t.source.utf8ByteSize⟩
  root_parent : t.rootNode.parent? = none
  child_lt : ∀ n : Node, n.tree = t → ∀ c ∈ n.children, c.id < n.id
  /-- Every node but the root is listed once, by the node that its parent link names. -/
  listed : ∀ n ∈ t.rootNode.preorder, n ≠ t.rootNode → ∃ p ∈ t.rootNode.preorder,
    n.parent? = some p ∧ n ∈ p.children ∧ p.children.Nodup ∧
      ∀ q ∈ t.rootNode.preorder, n ∈ q.children → q = p
  covers : ∀ n ∈ t.rootNode.preorder, n ≠ t.rootNode → n.span.start < n.span.stop
  inside : ∀ n ∈ t.rootNode.preorder, ∀ c ∈ n.children,
    n.span.start ≤ c.span.start ∧ c.span.stop ≤ n.span.stop
  ordered : ∀ n ∈ t.rootNode.preorder,
    n.children.Pairwise fun c d => c.span.stop ≤ d.span.start
  /-- Spans end at characters, and the text of a node is what stands there. -/
  slice : ∀ n ∈ t.rootNode.preorder,
    Text.IsBoundary t.source n.span.start ∧ Text.IsBoundary t.source n.span.stop ∧
      Text.IsSlice t.source n.span.start n.span.stop n.text

/-- A tree whose root is pushed last, over the whole text and above a row of declarations,
is sound. -/
theorem sound_of_push {t : Tree} {a : Arena} {children : List Child}
    (harena : t.arena = a.push .sourceFile ⟨0, t.source.utf8ByteSize⟩ children)
    (hroot : t.root = a.size) (ha : a.Sound t.source)
    (hrow : a.Row none 0 t.source.utf8ByteSize children)
    (hshape : Fits NodeKind.sourceFile.parts (a.entries children)) : t.Sound := by
  have hnode : t.rootNode.data = ⟨.sourceFile, ⟨0, t.source.utf8ByteSize⟩, none, children⟩ := by
    apply Node.data_eq
    change t.arena.node? t.root = _
    rw [harena, hroot, Arena.node?_push hrow.lt_size, if_pos rfl]
  exact
    { last := by rw [hroot, Tree.size, harena, Arena.size_push]
      parent := by rw [hnode]
      kind := by rw [Node.kind, hnode]
      span := by rw [Node.span, hnode]
      row := by rw [harena, hroot, hnode]; exact hrow.push
      shape := by
        rw [Node.kind, hnode, harena, Arena.entries_push _ _ hrow.lt_size hrow.lt_size]
        exact hshape
      grown := fun i data hi hne => by
        rw [harena] at hi ⊢
        exact ha.grown_push hrow hi (hroot ▸ hne) }

namespace Sound

variable {t : Tree} {n c : Node}

theorem eq_rootNode (hn : n.tree = t) (hid : n.id = t.root) : n = t.rootNode :=
  Node.eq_of_id_eq hn hid

/-- The children of a node of a sound tree are a row below it. -/
theorem row_children (h : t.Sound) (hn : n.tree = t) :
    t.arena.Row (some n.id) n.span.start n.span.stop n.data.children := by
  by_cases hroot : n.id = t.root
  · obtain rfl := eq_rootNode hn hroot
    rw [h.span]
    exact h.row
  · exact (h.grown n.id n.data (hn ▸ n.node?_id) hroot).row

/-- What is known of a child of a node of a sound tree. -/
theorem child (h : t.Sound) (hn : n.tree = t) (hc : c ∈ n.children) :
    c.data.parent = some n.id ∧ n.span.start ≤ c.span.start ∧ c.span.stop ≤ n.span.stop := by
  obtain ⟨htree, slot, hmem⟩ := Node.mem_children_iff.1 hc
  obtain ⟨data, hdata, hparent, hbounds⟩ := (h.row_children hn).stored _ hmem
  have heq : c.data = data := Node.data_eq (by rwa [htree, hn])
  have hspan : c.span = data.span := congrArg NodeData.span heq
  rw [heq, hspan]
  exact ⟨hparent, hbounds⟩

/-- The children of a node stand one after the other. -/
theorem ordered_children (h : t.Sound) (hn : n.tree = t) :
    n.children.Pairwise fun c d => c.span.stop ≤ d.span.start := by
  have hpairs := (h.row_children hn).ordered
  rw [← List.attach_map_subtype_val n.data.children, List.pairwise_map] at hpairs
  rw [Node.children, Node.slots, List.map_map, List.pairwise_map]
  refine hpairs.imp ?_
  intro c d hcd
  have hstored : ∀ child : { c // c ∈ n.data.children }, ∀ hlt,
      t.arena.node? child.1.node = some (⟨n.tree, child.1.node, hlt⟩ : Node).data := by
    subst hn
    exact fun child hlt => (⟨n.tree, child.1.node, hlt⟩ : Node).node?_id
  exact hcd _ _ (hstored c _) (hstored d _)

/-- Every node but the root covers something. -/
theorem covers (h : t.Sound) (hn : n.tree = t) (hroot : n ≠ t.rootNode) :
    n.span.start < n.span.stop :=
  (h.grown n.id n.data (hn ▸ n.node?_id) fun hid => hroot (eq_rootNode hn hid)).covers

theorem boundaries (h : t.Sound) (hn : n.tree = t) :
    Text.IsBoundary t.source n.span.start ∧ Text.IsBoundary t.source n.span.stop ∧
      n.span.start ≤ n.span.stop := by
  by_cases hroot : n = t.rootNode
  · rw [hroot, h.span]
    exact ⟨Text.isBoundary_zero _, Text.isBoundary_size _, Nat.zero_le _⟩
  · have hgrown := h.grown n.id n.data (hn ▸ n.node?_id) fun hid => hroot (eq_rootNode hn hid)
    exact ⟨hgrown.start, hgrown.stop, hgrown.covers.le⟩

theorem shaped (h : t.Sound) : t.Shaped where
  last := h.last
  parent?_rootNode := Node.parent?_eq_none h.parent
  kind_rootNode := h.kind
  parent?_child hn hc := Node.parent?_eq_some (Node.tree_of_mem_children hc) (h.child hn hc).1
  nodup_children {n} hn := by
    -- A child that is listed twice would stand before itself.
    refine (h.ordered_children hn).imp_of_mem ?_
    rintro c d hc - hcd rfl
    have hroot : c ≠ t.rootNode := by
      rintro rfl
      have hparent := (h.child hn hc).1
      rw [h.parent] at hparent
      cases hparent
    have hcovers := h.covers ((Node.tree_of_mem_children hc).trans hn) hroot
    omega
  fits_children {n} hn := by
    by_cases hroot : n.id = t.root
    · obtain rfl := eq_rootNode hn hroot
      exact h.shape
    · exact (h.grown n.id n.data (hn ▸ n.node?_id) hroot).shape

theorem nested (h : t.Sound) : t.Nested where
  toShaped := h.shaped
  inside hn hc := (h.child hn hc).2
  apart {n c d} hn hc hd hne := by
    let Apart (c d : Node) : Prop := c.span.stop ≤ d.span.start ∨ d.span.stop ≤ c.span.start
    have hsymm : Std.Symm Apart := ⟨fun _ _ hcd => hcd.symm⟩
    have hpairs : n.children.Pairwise Apart := (h.ordered_children hn).imp Or.inl
    exact hpairs.forall hc hd hne

theorem isSlice_text (h : t.Sound) (hn : n.tree = t) :
    Text.IsSlice t.source n.span.start n.span.stop n.text := by
  obtain ⟨hstart, hstop, hle⟩ := h.boundaries hn
  subst hn
  rw [Node.text, n.tree.bytes_eq]
  exact Text.isSlice_slice hstart hstop hle

theorem isEmpty_span (h : t.Sound) (hn : n.tree = t) (hkind : n.kind ≠ .sourceFile) :
    n.span.isEmpty = false := by
  have hcovers := h.covers hn (h.shaped.ne_rootNode hkind)
  simp only [Span.isEmpty, decide_eq_false_iff_not]
  omega

/-- Every node but the root has a text. -/
theorem text_ne_empty (h : t.Sound) (hn : n.tree = t) (hkind : n.kind ≠ .sourceFile) :
    n.text ≠ "" := by
  intro htext
  have hcovers := h.covers hn (h.shaped.ne_rootNode hkind)
  obtain ⟨before, after, -, -, hstop⟩ := h.isSlice_text hn
  rw [htext, String.utf8ByteSize_empty] at hstop
  omega

theorem wellFormed (h : t.Sound) : t.WellFormed where
  last := h.last
  root_span := h.span
  root_parent := h.shaped.parent?_rootNode
  child_lt _ _ _ hc := Node.id_lt_of_mem_children hc
  listed _ hn hroot := h.shaped.listed hn hroot
  covers _ hn hroot := h.covers (Node.tree_of_mem_preorder hn) hroot
  inside _ hn _ hc := (h.child (Node.tree_of_mem_preorder hn) hc).2
  ordered _ hn := h.ordered_children (Node.tree_of_mem_preorder hn)
  slice _ hn :=
    have htree := Node.tree_of_mem_preorder hn
    ⟨(h.boundaries htree).1, (h.boundaries htree).2.1, h.isSlice_text htree⟩

end Sound

end Tree

end TolkAnalysis
