import Mathlib.Data.List.Basic
import TolkAnalysis.Proofs.Tree.Extends
import TolkAnalysis.Tree.Basic

/-!
# Nodes and what lies below them

`Node.preorder` lists a node and everything below it. The lemmas here say how its members are
reached, step by step from a node to a child, and bind the children of a node to what its
arena stores.
-/

namespace TolkAnalysis

namespace Node

theorem eq_of_id_eq {m n : Node} (htree : m.tree = n.tree) (hid : m.id = n.id) : m = n := by
  cases m
  cases n
  cases htree
  cases hid
  rfl

theorem node?_id (n : Node) : n.tree.arena.node? n.id = some n.data :=
  Arena.node?_eq_some_iff.2 ⟨n.id_lt, rfl⟩

theorem data_eq {n : Node} {data : NodeData} (h : n.tree.arena.node? n.id = some data) :
    n.data = data :=
  Option.some_inj.1 (n.node?_id.symm.trans h)

theorem stores (n : Node) : n.tree.arena.Stores n.id n.kind n.span n.data.children :=
  .of_node? n.node?_id

/-- What is stored is stored of a node. -/
theorem exists_of_stores {t : Tree} {i : Nat} {kind : NodeKind} {span : Span}
    {children : List Child} (h : t.arena.Stores i kind span children) :
    ∃ n : Node, n.tree = t ∧ n.id = i ∧ n.kind = kind ∧ n.span = span ∧
      n.data.children = children := by
  let n : Node := ⟨t, i, h.lt⟩
  obtain ⟨hkind, hspan, hchildren⟩ := n.stores.eq h
  exact ⟨n, rfl, rfl, hkind, hspan, hchildren⟩

theorem mem_slots_iff {n c : Node} {slot : Option Field} :
    (slot, c) ∈ n.slots ↔ c.tree = n.tree ∧ ⟨slot, c.id⟩ ∈ n.data.children := by
  constructor
  · intro h
    obtain ⟨child, -, hchild⟩ := List.mem_map.1 h
    cases hchild
    exact ⟨rfl, child.2⟩
  · rintro ⟨htree, hmem⟩
    refine List.mem_map.2 ⟨⟨⟨slot, c.id⟩, hmem⟩, List.mem_attach _ _, ?_⟩
    exact congrArg _ (eq_of_id_eq htree.symm rfl)

theorem mem_children_iff {n c : Node} :
    c ∈ n.children ↔ c.tree = n.tree ∧ ∃ slot, ⟨slot, c.id⟩ ∈ n.data.children := by
  constructor
  · intro h
    obtain ⟨⟨slot, c'⟩, hmem, rfl⟩ := List.mem_map.1 h
    exact ⟨(mem_slots_iff.1 hmem).1, slot, (mem_slots_iff.1 hmem).2⟩
  · rintro ⟨htree, slot, hmem⟩
    exact List.mem_map.2 ⟨(slot, c), mem_slots_iff.2 ⟨htree, hmem⟩, rfl⟩

theorem tree_of_mem_children {n c : Node} (h : c ∈ n.children) : c.tree = n.tree :=
  (mem_children_iff.1 h).1

theorem parent?_eq_some {n c : Node} (htree : c.tree = n.tree) (h : c.data.parent = some n.id) :
    c.parent? = some n := by
  unfold parent?
  split
  · rename_i p hp
    obtain rfl : p = n.id := Option.some_inj.1 (hp.symm.trans h)
    exact congrArg some (eq_of_id_eq htree rfl)
  · rename_i hp
    rw [hp] at h
    cases h

theorem parent?_eq_none {n : Node} (h : n.data.parent = none) : n.parent? = none := by
  unfold parent?
  split
  · rename_i p hp
    rw [h] at hp
    cases hp
  · rfl

theorem ancestors_of_parent? {n p : Node} (h : n.parent? = some p) : n.ancestors = p :: p.ancestors := by
  rw [ancestors]
  split
  · rename_i q hq
    rw [h] at hq
    cases hq
    rfl
  · rename_i hnone
    rw [h] at hnone
    cases hnone

theorem ancestors_of_parent?_none {n : Node} (h : n.parent? = none) : n.ancestors = [] := by
  rw [ancestors]
  split
  · rename_i q hq
    rw [h] at hq
    cases hq
  · rfl

/-- What lies below a node is the node and what lies below its children. -/
theorem preorder_eq (n : Node) : n.preorder = n :: n.children.flatMap preorder := by
  rw [preorder, List.flatMap_def, List.flatMap_def, List.attach_map_val (l := n.children)
    (f := preorder)]

theorem mem_preorder_iff {m n : Node} :
    m ∈ n.preorder ↔ m = n ∨ ∃ c ∈ n.children, m ∈ c.preorder := by
  rw [preorder_eq, List.mem_cons, List.mem_flatMap]

theorem mem_preorder_self (n : Node) : n ∈ n.preorder := mem_preorder_iff.2 (.inl rfl)

/-- What holds of a node and goes over to children holds of everything below the node. -/
theorem preorder_induction {P : Node → Prop} {n : Node} (hn : P n)
    (hchild : ∀ p, p ∈ n.preorder → P p → ∀ c ∈ p.children, P c) : ∀ m ∈ n.preorder, P m := by
  induction n using preorder.induct with
  | case1 n ih =>
    intro m hm
    rcases mem_preorder_iff.1 hm with rfl | ⟨c, hc, hmc⟩
    · exact hn
    · have hself := mem_preorder_self n
      refine ih ⟨c, hc⟩ (hchild n hself hn c hc) (fun p hp => hchild p ?_) m hmc
      exact mem_preorder_iff.2 (.inr ⟨c, hc, hp⟩)

theorem mem_preorder_of_mem_children {n p c : Node} (hp : p ∈ n.preorder) (hc : c ∈ p.children) :
    c ∈ n.preorder := by
  induction n using preorder.induct with
  | case1 n ih =>
    rcases mem_preorder_iff.1 hp with rfl | ⟨d, hd, hpd⟩
    · exact mem_preorder_iff.2 (.inr ⟨c, hc, mem_preorder_self c⟩)
    · exact mem_preorder_iff.2 (.inr ⟨d, hd, ih ⟨d, hd⟩ hpd⟩)

theorem mem_preorder_trans {n p m : Node} (hp : p ∈ n.preorder) (hm : m ∈ p.preorder) :
    m ∈ n.preorder :=
  preorder_induction (P := fun m => m ∈ n.preorder) hp
    (fun _ _ hq _ hc => mem_preorder_of_mem_children hq hc) m hm

theorem tree_of_mem_preorder {n m : Node} (hm : m ∈ n.preorder) : m.tree = n.tree :=
  preorder_induction (P := fun m => m.tree = n.tree) rfl
    (fun _ _ hq _ hc => (tree_of_mem_children hc).trans hq) m hm

/-- Everything below a node but the node itself is the child of something below it. -/
theorem exists_parent_of_mem_preorder {n m : Node} (hm : m ∈ n.preorder) :
    m = n ∨ ∃ p ∈ n.preorder, m ∈ p.children := by
  induction n using preorder.induct with
  | case1 n ih =>
    rcases mem_preorder_iff.1 hm with rfl | ⟨c, hc, hmc⟩
    · exact .inl rfl
    · right
      rcases ih ⟨c, hc⟩ hmc with rfl | ⟨p, hp, hmp⟩
      · exact ⟨n, mem_preorder_self n, hc⟩
      · exact ⟨p, mem_preorder_iff.2 (.inr ⟨c, hc, hp⟩), hmp⟩

theorem id_le_of_mem_preorder {n m : Node} (hm : m ∈ n.preorder) : m.id ≤ n.id :=
  preorder_induction (P := fun m => m.id ≤ n.id) le_rfl
    (fun _ _ hq _ hc => (id_lt_of_mem_children hc).le.trans hq) m hm

end Node

end TolkAnalysis
