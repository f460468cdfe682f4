import Mathlib.Data.List.Find
import TolkAnalysis.Grammar.Parse
import TolkAnalysis.Proofs.Tree.Place

/-!
# Trees of one text

The trees that are read from one text at different times differ only in the number of their file
and in their stamp: each is a `Tree.Copy` of the other. `Node.onto` is the node at the same
position of a copy. Whatever is read off a node, its place in the tree and its text, is the same
there, and every node that is reached from it is carried along.
-/

namespace TolkAnalysis

/-- The trees were read from one text. -/
structure Tree.Copy (t t' : Tree) : Prop where
  source : t'.source = t.source
  arena : t'.arena = t.arena
  root : t'.root = t.root

theorem Tree.copy_parse (file file' : FileId) (stamp stamp' : Nat) (text : String) :
    (parse file stamp text).tree.Copy (parse file' stamp' text).tree :=
  ⟨rfl, rfl, rfl⟩

namespace Node

/-- The node at the same position of another tree, if it has that position. -/
def onto (t' : Tree) (n : Node) : Node :=
  if h : n.id < t'.arena.size then ⟨t', n.id, h⟩ else t'.rootNode

variable {t' : Tree} {n m : Node}

theorem onto_eq (h : n.tree.Copy t') : n.onto t' = ⟨t', n.id, h.arena ▸ n.id_lt⟩ :=
  dif_pos (h.arena ▸ n.id_lt)

theorem tree_onto (t' : Tree) (n : Node) : (n.onto t').tree = t' := by
  unfold onto
  split <;> rfl

theorem id_onto (h : n.tree.Copy t') : (n.onto t').id = n.id := by rw [onto_eq h]

theorem onto_of_id_eq (h : n.tree.Copy t') (htree : m.tree = t') (hid : m.id = n.id) :
    n.onto t' = m :=
  eq_of_id_eq ((tree_onto t' n).trans htree.symm) ((id_onto h).trans hid.symm)

theorem onto_rootNode {t : Tree} (h : t.Copy t') : t.rootNode.onto t' = t'.rootNode :=
  onto_of_id_eq (n := t.rootNode) h rfl h.root

/-- Different nodes of a tree have different positions in a copy. -/
theorem onto_injective (h : n.tree.Copy t') (htree : m.tree = n.tree)
    (heq : m.onto t' = n.onto t') : m = n := by
  refine eq_of_id_eq htree ?_
  rw [← id_onto h, ← id_onto (htree ▸ h), heq]

theorem data_onto (h : n.tree.Copy t') : (n.onto t').data = n.data := by
  refine data_eq ?_
  rw [tree_onto, id_onto h, h.arena]
  exact n.node?_id

theorem kind_onto (h : n.tree.Copy t') : (n.onto t').kind = n.kind :=
  congrArg NodeData.kind (data_onto h)

theorem span_onto (h : n.tree.Copy t') : (n.onto t').span = n.span :=
  congrArg NodeData.span (data_onto h)

theorem text_onto (h : n.tree.Copy t') : (n.onto t').text = n.text := by
  have hbytes : t'.bytes = n.tree.bytes := by rw [t'.bytes_eq, n.tree.bytes_eq, h.source]
  rw [text, text, span_onto h, tree_onto, hbytes]

/-! ### Going down -/

theorem slots_onto (h : n.tree.Copy t') :
    (n.onto t').slots = n.slots.map fun s => (s.1, s.2.onto t') := by
  rw [onto_eq h, slots, slots, List.map_map]
  obtain ⟨t, i, hi⟩ := n
  obtain ⟨file, stamp, source, bytes, hbytes, arena, root, hroot⟩ := t'
  obtain rfl : arena = t.arena := h.arena
  refine List.map_congr_left fun c _ => congrArg (Prod.mk c.1.field) (Eq.symm ?_)
  exact onto_of_id_eq h rfl rfl

theorem children_onto (h : n.tree.Copy t') :
    (n.onto t').children = n.children.map (onto t') := by
  rw [children, slots_onto h, List.map_map, children, List.map_map]
  rfl

theorem child?_onto (h : n.tree.Copy t') (slot : Field) :
    (n.onto t').child? slot = (n.child? slot).map (onto t') := by
  rw [child?, slots_onto h, List.find?_map, Option.map_map, child?, Option.map_map]
  rfl

/-- Nodes that are kept alike are the same nodes. -/
theorem filter_onto {ns : List Node} {keep keep' : Node → Bool}
    (hkeep : ∀ n ∈ ns, keep' (n.onto t') = keep n) :
    (ns.map (onto t')).filter keep' = (ns.filter keep).map (onto t') := by
  rw [List.filter_map]
  exact congrArg _ (List.filter_congr hkeep)

theorem copy_children (h : n.tree.Copy t') : ∀ c ∈ n.children, c.tree.Copy t' :=
  fun _ hc => tree_of_mem_children hc ▸ h

theorem childrenOfKind_onto (h : n.tree.Copy t') (kind : NodeKind) :
    (n.onto t').childrenOfKind kind = (n.childrenOfKind kind).map (onto t') := by
  rw [childrenOfKind, children_onto h]
  exact filter_onto fun c hc => by rw [kind_onto (copy_children h c hc)]

theorem preorder_onto (h : n.tree.Copy t') :
    (n.onto t').preorder = n.preorder.map (onto t') := by
  induction n using preorder.induct with
  | case1 n ih =>
      rw [preorder_eq, children_onto h, preorder_eq n, List.map_cons, List.flatMap_map,
        List.map_flatMap]
      refine congrArg _ (List.flatMap_congr fun c hc => ?_)
      exact ih ⟨c, hc⟩ (copy_children h c hc)

/-! ### Going up -/

theorem parent?_onto (h : n.tree.Copy t') : (n.onto t').parent? = n.parent?.map (onto t') := by
  have hdata := data_onto h
  have hparent : ∀ {m : Node} {i : Nat}, m.data.parent = some i →
      ∃ p, m.parent? = some p ∧ p.id = i ∧ p.tree = m.tree := by
    intro m i hi
    unfold parent?
    split
    · rename_i j hj
      rw [hj] at hi
      cases hi
      exact ⟨_, rfl, rfl, rfl⟩
    · rename_i hj
      rw [hj] at hi
      cases hi
  have hnone : ∀ {m : Node}, m.data.parent = none → m.parent? = none := by
    intro m hm
    unfold parent?
    split
    · rename_i j hj
      rw [hj] at hm
      cases hm
    · rfl
  cases hp : n.data.parent with
  | none =>
      rw [hnone hp, hnone (hdata ▸ hp)]
      rfl
  | some i =>
      obtain ⟨p, hparent_eq, hid, htree⟩ := hparent hp
      obtain ⟨p', hparent_eq', hid', htree'⟩ := hparent (m := n.onto t') (hdata ▸ hp)
      rw [hparent_eq, hparent_eq', Option.map_some]
      refine congrArg some (onto_of_id_eq (htree ▸ h) (htree'.trans (tree_onto t' n)) ?_).symm
      exact hid'.trans hid.symm

theorem copy_parent? (h : n.tree.Copy t') {p : Node} (hp : n.parent? = some p) :
    p.tree.Copy t' := (id_lt_of_parent? hp).2 ▸ h

/-- What is read off a node alike holds alike of a parent. -/
theorem any_parent?_onto (h : n.tree.Copy t') {test test' : Node → Bool}
    (htest : ∀ p : Node, p.tree.Copy t' → test' (p.onto t') = test p) :
    (n.onto t').parent?.any test' = n.parent?.any test := by
  rw [parent?_onto h]
  cases hp : n.parent? with
  | none => rfl
  | some p => exact htest p (copy_parent? h hp)

theorem slot?_onto (h : n.tree.Copy t') : (n.onto t').slot? = n.slot? := by
  unfold slot?
  rw [parent?_onto h]
  cases hp : n.parent? with
  | none => rfl
  | some p =>
      rw [Option.map_some]
      dsimp only
      rw [data_onto (copy_parent? h hp), id_onto h]

theorem ancestors_onto (h : n.tree.Copy t') :
    (n.onto t').ancestors = n.ancestors.map (onto t') := by
  fun_induction ancestors n with
  | case1 n p hp ih =>
      rw [ancestors_of_parent? ((parent?_onto h).trans (congrArg _ hp)), List.map_cons,
        ih (copy_parent? h hp)]
  | case2 n hp => exact ancestors_of_parent?_none ((parent?_onto h).trans (congrArg _ hp))

theorem copy_ancestors (h : n.tree.Copy t') : ∀ a ∈ n.ancestors, a.tree.Copy t' :=
  fun _ ha => tree_of_mem_ancestors ha ▸ h

theorem ancestorOfKind?_onto (h : n.tree.Copy t') (kind : NodeKind) :
    (n.onto t').ancestorOfKind? kind = (n.ancestorOfKind? kind).map (onto t') := by
  rw [ancestorOfKind?, ancestors_onto h, List.find?_map]
  refine congrArg _ (List.find?_congr fun a ha => ?_)
  exact congrArg (· == kind) (kind_onto (copy_ancestors h a ha))

end Node

end TolkAnalysis
