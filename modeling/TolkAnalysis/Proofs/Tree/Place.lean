import Mathlib.Data.List.Nodup
import TolkAnalysis.Proofs.Tree.Node

/-!
# Where a node stands

In a tree that is `Shaped` a child and its parent name each other, and the parts of a kind say
which child may sit in which slot. So going up from a node leads through the nodes that it lies
below: `Shaped.ancestors_child` says so for one step, `Shaped.mem_ancestors` and
`Shaped.mem_preorder_of_mem_ancestors` for all.

`NodeKind.holds` reads off the parts of a kind which child may sit in which slot. Nothing is said
of the text here.

In a tree that is `Nested` the children of a node stand inside it and apart from each other. So what
lies below a node stands inside it (`Nested.inside_of_mem_preorder`), and of two nodes one lies
below the other, or one ends before the other begins (`Nested.below_or_apart`). Nothing is said of
what the nodes cover: a node may be empty, and two siblings may be empty at one place.
-/

namespace TolkAnalysis

namespace Node

variable {m n p : Node}

theorem beq_iff_eq_of_tree (h : m.tree = n.tree) : (m == n) = true ↔ m = n := by
  constructor
  · intro heq
    exact eq_of_id_eq h (beq_iff_eq.mp (Bool.and_eq_true_iff.mp heq).1)
  · rintro rfl
    exact Bool.and_eq_true_iff.mpr ⟨beq_self_eq_true _, beq_self_eq_true _⟩

/-- A node is reached from the root of its tree if a walk through the tree meets it. -/
theorem mem_preorder_of_any (h : n.tree.rootNode.preorder.any (· == n) = true) :
    n ∈ n.tree.rootNode.preorder := by
  obtain ⟨m, hm, heq⟩ := List.any_eq_true.mp h
  have htree : m.tree = n.tree := tree_of_mem_preorder (n := n.tree.rootNode) hm
  exact (beq_iff_eq_of_tree htree).mp heq ▸ hm

theorem tree_of_mem_ancestors (h : m ∈ n.ancestors) : m.tree = n.tree := by
  fun_induction ancestors n with
  | case1 n p hp ih =>
      have htree := (id_lt_of_parent? hp).2
      rcases List.mem_cons.mp h with rfl | h
      · exact htree
      · exact (ih h).trans htree
  | case2 n hp => cases h

theorem mem_slots_of_child? {c : Node} {slot : Field} (h : n.child? slot = some c) :
    (some slot, c) ∈ n.slots := by
  obtain ⟨⟨slot', c'⟩, hs, rfl⟩ := Option.map_eq_some_iff.mp h
  have hslot := List.find?_some hs
  rw [beq_iff_eq] at hslot
  dsimp only at hslot
  exact hslot ▸ List.mem_of_find?_eq_some hs

theorem mem_children_of_mem_slots {c : Node} {slot : Option Field} (h : (slot, c) ∈ n.slots) :
    c ∈ n.children := List.mem_map.mpr ⟨_, h, rfl⟩

theorem exists_slot_of_mem_children {c : Node} (h : c ∈ n.children) :
    ∃ slot, (slot, c) ∈ n.slots := by
  obtain ⟨⟨slot, c'⟩, hs, rfl⟩ := List.mem_map.mp h
  exact ⟨slot, hs⟩

theorem map_id_parent? (n : Node) : n.parent?.map (·.id) = n.data.parent := by
  unfold parent?
  split
  · rename_i p hp
    exact hp.symm
  · rename_i hp
    exact hp.symm

/-- The children stand at the stored positions. -/
theorem map_id_children (n : Node) : n.children.map (·.id) = n.data.children.map (·.node) := by
  rw [children, slots, List.map_map, List.map_map]
  conv_rhs => rw [← List.attach_map_subtype_val n.data.children, List.map_map]
  rfl

/-- No child is there twice if none is stored twice. -/
theorem nodup_children_iff : n.children.Nodup ↔ (n.data.children.map (·.node)).Nodup := by
  rw [← map_id_children]
  refine ⟨fun h => (List.nodup_map_iff_inj_on h).mpr fun a ha b hb hid => ?_, List.Nodup.of_map _⟩
  exact eq_of_id_eq ((tree_of_mem_children ha).trans (tree_of_mem_children hb).symm) hid

end Node

namespace NodeKind

theorem mem_all (kind : NodeKind) : kind ∈ all := by cases kind <;> decide

/-- A node of the kind may have a child of kind `child` in a slot. -/
def holds (kind : NodeKind) (slot : Option Field) (child : NodeKind) : Bool :=
  kind.parts.any fun p => p.slot == slot && p.kinds child

theorem exists_part_of_holds {kind child : NodeKind} {slot : Option Field}
    (h : kind.holds slot child = true) : ∃ p ∈ kind.parts, p.slot = slot ∧ p.kinds child = true := by
  obtain ⟨p, hp, h⟩ := List.any_eq_true.mp h
  obtain ⟨hslot, hkind⟩ := Bool.and_eq_true_iff.mp h
  exact ⟨p, hp, beq_iff_eq.mp hslot, hkind⟩

/-- What the parts of all kinds say of a slot holds of a child in that slot. -/
theorem of_holds {P : NodeKind → NodeKind → Prop} {slot : Option Field}
    (hall : ∀ kind ∈ all, ∀ p ∈ kind.parts, p.slot = slot → ∀ child ∈ all,
      p.kinds child = true → P kind child)
    {kind child : NodeKind} (h : kind.holds slot child = true) : P kind child := by
  obtain ⟨p, hp, hslot, hkind⟩ := exists_part_of_holds h
  exact hall kind kind.mem_all p hp hslot child child.mem_all hkind

/-- A node of the kind has at most one child in a slot. -/
def single (kind : NodeKind) (slot : Option Field) : Bool :=
  (kind.parts.filter (·.slot == slot)).length ≤ 1 &&
    kind.parts.all fun p => !(p.slot == slot && p.count == .many)

theorem single_name (kind : NodeKind) : kind.single (some .name) = true := by
  cases kind <;> rfl

/-! ### Which node may stand where -/

/-- The node spells a type or lists types. -/
def spellsType (kind : NodeKind) : Bool := kind.isType || kind == .instantiationTypeList

/-- What the parts of all kinds say of a node and a child in one of its slots. Below a receiver and
below a type stand only types. -/
theorem kinds_of_holds {kind child : NodeKind} {slot : Option Field}
    (h : kind.holds slot child = true) :
    (slot = some .receiver → kind = .methodDeclaration ∧ child = .methodReceiver) ∧
      (slot = some .name → child = .typeIdentifier → kind = .instantiatedType) ∧
      (slot = some .catchVar1 ∨ slot = some .catchVar2 → child.isBinder = true) ∧
      (kind = .methodReceiver ∨ kind.spellsType = true → child.spellsType = true) := by
  have hall : ∀ kind ∈ all, ∀ p ∈ kind.parts,
      (p.slot = some .receiver → ∀ child ∈ all, p.kinds child = true →
        kind = .methodDeclaration ∧ child = .methodReceiver) ∧
      (p.slot = some .name → p.kinds .typeIdentifier = true → kind = .instantiatedType) ∧
      (p.slot = some .catchVar1 ∨ p.slot = some .catchVar2 → ∀ child ∈ all,
        p.kinds child = true → child.isBinder = true) ∧
      (kind = .methodReceiver ∨ kind.spellsType = true → ∀ child ∈ all,
        p.kinds child = true → child.spellsType = true) := by
    decide +kernel
  obtain ⟨p, hp, rfl, hchild⟩ := exists_part_of_holds h
  obtain ⟨hreceiver, hname, hcatch, htypes⟩ := hall kind kind.mem_all p hp
  exact ⟨fun hslot => hreceiver hslot child child.mem_all hchild,
    fun hslot hkind => hname hslot (hkind ▸ hchild),
    fun hslot => hcatch hslot child child.mem_all hchild,
    fun hkind => htypes hkind child child.mem_all hchild⟩

theorem holds_receiver {kind child : NodeKind} (h : kind.holds (some .receiver) child = true) :
    kind = .methodDeclaration ∧ child = .methodReceiver := (kinds_of_holds h).1 rfl

theorem holds_name_typeIdentifier {kind : NodeKind}
    (h : kind.holds (some .name) .typeIdentifier = true) : kind = .instantiatedType :=
  (kinds_of_holds h).2.1 rfl rfl

theorem isBinder_of_holds {kind child : NodeKind} {slot : Field}
    (hslot : slot = .catchVar1 ∨ slot = .catchVar2) (h : kind.holds (some slot) child = true) :
    child.isBinder = true :=
  (kinds_of_holds h).2.2.1 (hslot.imp (congrArg some) (congrArg some))

theorem spellsType_of_holds {kind child : NodeKind} {slot : Option Field}
    (hkind : kind = .methodReceiver ∨ kind.spellsType = true)
    (h : kind.holds slot child = true) : child.spellsType = true := (kinds_of_holds h).2.2.2 hkind

end NodeKind

namespace Tree

/-- The root stands last, a child names its parent, which lists it once, and the children of a node
are parts of its kind. -/
structure Shaped (t : Tree) : Prop where
  last : t.root + 1 = t.size
  parent?_rootNode : t.rootNode.parent? = none
  kind_rootNode : t.rootNode.kind = .sourceFile
  parent?_child : ∀ {n c : Node}, n.tree = t → c ∈ n.children → c.parent? = some n
  nodup_children : ∀ {n : Node}, n.tree = t → n.children.Nodup
  fits_children : ∀ {n : Node}, n.tree = t →
    Fits n.kind.parts (t.arena.entries n.data.children)

namespace Shaped

variable {t : Tree} {n m c : Node}

theorem ancestors_child (h : t.Shaped) (hn : n.tree = t) (hc : c ∈ n.children) :
    c.ancestors = n :: n.ancestors :=
  Node.ancestors_of_parent? (h.parent?_child hn hc)

theorem ancestors_rootNode (h : t.Shaped) : t.rootNode.ancestors = [] :=
  Node.ancestors_of_parent?_none h.parent?_rootNode

/-- What lies below a node has it among its ancestors. -/
theorem mem_ancestors (h : t.Shaped) (hn : n.tree = t) (hm : m ∈ n.preorder) (hne : m ≠ n) :
    n ∈ m.ancestors := by
  have below : ∀ m ∈ n.preorder, m = n ∨ n ∈ m.ancestors := by
    refine Node.preorder_induction (.inl rfl) fun p hp hanc c hc => .inr ?_
    rw [Node.ancestors_of_parent? (h.parent?_child ((Node.tree_of_mem_preorder hp).trans hn) hc)]
    rcases hanc with rfl | hanc
    · exact List.mem_cons_self
    · exact List.mem_cons_of_mem _ hanc
  exact (below m hm).resolve_left hne

/-- A node that is reached from the root lies below its ancestors. -/
theorem mem_preorder_of_mem_ancestors (h : t.Shaped) (hm : m ∈ t.rootNode.preorder)
    (hn : n ∈ m.ancestors) : n ∈ t.rootNode.preorder ∧ m ∈ n.preorder := by
  have above : ∀ m ∈ t.rootNode.preorder, ∀ n ∈ m.ancestors,
      n ∈ t.rootNode.preorder ∧ m ∈ n.preorder := by
    refine Node.preorder_induction ?_ fun p hp ih c hc n hn => ?_
    · rw [Node.ancestors_of_parent?_none h.parent?_rootNode]
      exact fun n hn => nomatch hn
    · rw [Node.ancestors_of_parent? (h.parent?_child (Node.tree_of_mem_preorder hp) hc)] at hn
      rcases List.mem_cons.mp hn with rfl | hn
      · exact ⟨hp, Node.mem_preorder_of_mem_children (Node.mem_preorder_self _) hc⟩
      · exact ⟨(ih n hn).1, Node.mem_preorder_of_mem_children (ih n hn).2 hc⟩
  exact above m hm n hn

/-- Every node but the root is the child of its parent, and of no other node. -/
theorem listed (h : t.Shaped) (hn : n ∈ t.rootNode.preorder) (hroot : n ≠ t.rootNode) :
    ∃ p ∈ t.rootNode.preorder, n.parent? = some p ∧ n ∈ p.children ∧ p.children.Nodup ∧
      ∀ q ∈ t.rootNode.preorder, n ∈ q.children → q = p := by
  rcases Node.exists_parent_of_mem_preorder hn with rfl | ⟨p, hp, hnp⟩
  · exact absurd rfl hroot
  · have htree : p.tree = t := Node.tree_of_mem_preorder hp
    have hparent := h.parent?_child htree hnp
    refine ⟨p, hp, hparent, hnp, h.nodup_children htree, fun q hq hnq => ?_⟩
    have hother := h.parent?_child (Node.tree_of_mem_preorder hq) hnq
    rw [hparent] at hother
    exact (Option.some_inj.1 hother).symm

/-- The slots and kinds of the children fit the shape of the node. -/
theorem fits_slots (h : t.Shaped) (hn : n.tree = t) :
    Fits n.kind.parts (n.slots.map fun s => (s.1, s.2.kind)) := by
  have hentries : n.slots.map (fun s => (s.1, s.2.kind)) = t.arena.entries n.data.children := by
    subst hn
    rw [Node.slots, List.map_map, Arena.entries]
    conv_rhs => rw [← List.attach_map_subtype_val n.data.children, List.map_map]
    refine List.map_congr_left fun child _ => ?_
    have hlt : child.1.node < n.tree.arena.size :=
      Nat.lt_trans (n.placed_data.child_lt child.1 child.2) n.id_lt
    have hnode := (⟨n.tree, child.1.node, hlt⟩ : Node).node?_id
    simp only [Function.comp_apply, Node.kind]
    rw [hnode]
    rfl
  rw [hentries]
  exact h.fits_children hn

/-- A node is listed in the slot that it says. -/
theorem slot?_of_mem_slots (h : t.Shaped) (hn : n.tree = t) {slot : Option Field}
    (hc : (slot, c) ∈ n.slots) : c.slot? = slot := by
  have hmem := Node.mem_children_of_mem_slots hc
  obtain ⟨htree, hstored⟩ := Node.mem_slots_iff.mp hc
  have hids := Node.nodup_children_iff.mp (h.nodup_children hn)
  unfold Node.slot?
  rw [h.parent?_child hn hmem]
  dsimp only
  cases hfind : n.data.children.find? (·.node == c.id) with
  | none => simpa using List.find?_eq_none.mp hfind _ hstored
  | some child =>
      have hid : child.node = c.id := by simpa using List.find?_some hfind
      have hchild := List.mem_of_find?_eq_some hfind
      obtain rfl := List.inj_on_of_nodup_map hids hchild hstored hid
      rfl

/-- The parts of a node's kind allow its children. -/
theorem holds_of_mem_slots (h : t.Shaped) (hn : n.tree = t) {slot : Option Field}
    (hc : (slot, c) ∈ n.slots) : n.kind.holds slot c.kind = true := by
  have hentry : (slot, c.kind) ∈ n.slots.map fun s => (s.1, s.2.kind) :=
    List.mem_map.mpr ⟨_, hc, rfl⟩
  obtain ⟨p, hp, hslot, hkind⟩ := (h.fits_slots hn).exists_part hentry
  refine List.any_eq_true.mpr ⟨p, hp, Bool.and_eq_true_iff.mpr ⟨?_, hkind⟩⟩
  exact beq_iff_eq.mpr hslot.symm

/-- A child in a slot that holds at most one is the one that is found there. -/
theorem child?_of_mem_slots (h : t.Shaped) (hn : n.tree = t) {slot : Field}
    (hsingle : n.kind.single (some slot) = true) (hc : (some slot, c) ∈ n.slots) :
    n.child? slot = some c := by
  obtain ⟨hone, hcount⟩ := Bool.and_eq_true_iff.mp hsingle
  have hle := (h.fits_slots hn).length_filter_slot_le (of_decide_eq_true hone)
    fun p hp hslot hmany => by
      have hpart := List.all_eq_true.mp hcount p hp
      simp [hslot, hmany] at hpart
  rw [List.filter_map, List.length_map] at hle
  have hmem : (some slot, c) ∈ n.slots.filter (·.1 == some slot) :=
    List.mem_filter.mpr ⟨hc, by simp⟩
  obtain ⟨entry, hentry⟩ : ∃ entry, n.slots.filter (·.1 == some slot) = [entry] :=
    List.length_eq_one_iff.mp (Nat.le_antisymm hle (List.length_pos_of_mem hmem))
  unfold Node.child?
  rw [← List.head?_filter, hentry]
  rw [hentry] at hmem
  rw [← List.mem_singleton.mp hmem]
  rfl

/-- A node that is reached from the root is a child of its parent. -/
theorem mem_slots_of_parent? (h : t.Shaped) {p : Node} (hn : n ∈ t.rootNode.preorder)
    (hp : n.parent? = some p) : (n.slot?, n) ∈ p.slots := by
  have hroot : n ≠ t.rootNode := by
    rintro rfl
    rw [h.parent?_rootNode] at hp
    cases hp
  obtain ⟨q, hq, hparent, hmem, -⟩ := h.listed hn hroot
  rw [hp] at hparent
  cases hparent
  obtain ⟨slot, hslot⟩ := Node.exists_slot_of_mem_children hmem
  rwa [h.slot?_of_mem_slots (Node.tree_of_mem_preorder hq) hslot]

theorem holds_of_parent? (h : t.Shaped) {p : Node} (hn : n ∈ t.rootNode.preorder)
    (hp : n.parent? = some p) : p.kind.holds n.slot? n.kind = true := by
  have htree := (Node.id_lt_of_parent? hp).2.trans (Node.tree_of_mem_preorder hn)
  exact h.holds_of_mem_slots htree (h.mem_slots_of_parent? hn hp)

theorem ne_rootNode (h : t.Shaped) (hkind : n.kind ≠ .sourceFile) : n ≠ t.rootNode := by
  rintro rfl
  exact hkind h.kind_rootNode

theorem ne_rootNode_of_mem_preorder (h : t.Shaped) (hn : n.tree = t) (hc : c ∈ n.children)
    (hm : m ∈ c.preorder) : m ≠ t.rootNode := by
  rintro rfl
  have hle : t.root ≤ c.id := Node.id_le_of_mem_preorder hm
  have hlt : c.id < n.id := Node.id_lt_of_mem_children hc
  have hbound := n.id_lt
  have hlast := h.last
  unfold Tree.size at hlast
  rw [hn] at hbound
  omega

theorem children_eq_nil (h : t.Shaped) (hn : n.tree = t) (hparts : n.kind.parts = []) :
    n.children = [] := by
  have hfits := h.fits_slots hn
  rw [hparts] at hfits
  have hslots : n.slots.map (fun s => (s.1, s.2.kind)) = [] := hfits
  rw [Node.children, List.map_eq_nil_iff.mp hslots, List.map_nil]

end Shaped

/-! ### Nested nodes -/

/-- A child stands inside its parent, and apart from the other children. -/
structure Nested (t : Tree) : Prop extends Shaped t where
  inside : ∀ {n c : Node}, n.tree = t → c ∈ n.children →
    n.span.start ≤ c.span.start ∧ c.span.stop ≤ n.span.stop
  apart : ∀ {n c d : Node}, n.tree = t → c ∈ n.children → d ∈ n.children → c ≠ d →
    c.span.stop ≤ d.span.start ∨ d.span.stop ≤ c.span.start

namespace Nested

variable {t : Tree} {n m a b : Node}

/-- What lies below a node stands between its ends. -/
theorem inside_of_mem_preorder (h : t.Nested) (hn : n.tree = t) (hm : m ∈ n.preorder) :
    n.span.start ≤ m.span.start ∧ m.span.stop ≤ n.span.stop := by
  refine Node.preorder_induction (P := fun m => n.span.start ≤ m.span.start ∧
    m.span.stop ≤ n.span.stop) ⟨le_rfl, le_rfl⟩ (fun p hp hin c hc => ?_) m hm
  have hchild := h.inside ((Node.tree_of_mem_preorder hp).trans hn) hc
  exact ⟨hin.1.trans hchild.1, hchild.2.trans hin.2⟩

theorem below_or_apart (h : t.Nested) (hn : n.tree = t) (ha : a ∈ n.preorder)
    (hb : b ∈ n.preorder) : a ∈ b.preorder ∨ b ∈ a.preorder ∨
      a.span.stop ≤ b.span.start ∨ b.span.stop ≤ a.span.start := by
  induction n using Node.preorder.induct with
  | case1 n ih =>
      rcases Node.mem_preorder_iff.mp ha with rfl | ⟨c, hc, hac⟩
      · exact .inr (.inl hb)
      · rcases Node.mem_preorder_iff.mp hb with rfl | ⟨d, hd, hbd⟩
        · exact .inl ha
        · have hctree := (Node.tree_of_mem_children hc).trans hn
          by_cases hcd : c = d
          · subst hcd
            exact ih ⟨c, hc⟩ hctree hac hbd
          · have hdtree := (Node.tree_of_mem_children hd).trans hn
            have hain := h.inside_of_mem_preorder hctree hac
            have hbin := h.inside_of_mem_preorder hdtree hbd
            rcases h.apart hn hc hd hcd with hlt | hlt
            · exact .inr (.inr (.inl (by omega)))
            · exact .inr (.inr (.inr (by omega)))

end Nested

end Tree

end TolkAnalysis
