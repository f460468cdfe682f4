import TolkAnalysis.Inference.Expression
import TolkAnalysis.Proofs.Grammar.Layout
import TolkAnalysis.Proofs.Tree.Place
import TolkAnalysis.Resolution.Resolve

/-!
# Trees that are written in another way

A name may be written in backticks. `Tree.Transcribes t t'` says that two trees have the same nodes,
of the same kinds and below the same parents, and that what is written at a node is read alike in
both: a name as the same name, an operator as the same operator. Some texts are even spelled alike,
since they are taken as they stand (`Node.verbatim`): the name of the type before the dot in the
head of a method, the name of a primitive type, and the path of an import directive.

A `Transcription` gives each tree such a tree. So it gives each node a node, `Transcription.node`,
and what is read off a node by going up and down in its tree is read off the other node in the same
way.
-/

namespace TolkAnalysis

/-! ### Texts -/

namespace Text

/-- No rule tells the texts apart where a name is written. -/
structure SameName (x y : String) : Prop where
  name : withoutBackticks y = withoutBackticks x
  self : (y == "self") = (x == "self")
  blank : (y == "" || y == "_") = (x == "" || x == "_")
  sized : sizedTypeFamily? y = sizedTypeFamily? x
  primitive : Ty.ofName? x = none → Ty.ofName? y = none
  index : Inference.elementIndex? y = Inference.elementIndex? x

theorem SameName.refl (x : String) : SameName x x := ⟨rfl, rfl, rfl, rfl, id, rfl⟩

/-- The operators that the type of an operation depends on. -/
def operators : List String :=
  ["&&", "||", "==", "!=", "<", ">", "<=", ">=", "+", "-", "*", "/", "%", "<<", ">>", "&", "|", "^",
   "??", "!", "~"]

/-- No rule tells the texts apart where an operator is written. -/
def SameOperator (x y : String) : Prop := ∀ op ∈ operators, (y == op) = (x == op)

theorem SameOperator.contains_eq {x y : String} (h : SameOperator x y) {ops : List String}
    (hops : ∀ op ∈ ops, op ∈ operators) : ops.contains y = ops.contains x := by
  rw [Bool.eq_iff_iff, List.contains_iff_mem, List.contains_iff_mem]
  refine ⟨fun hy => ?_, fun hx => ?_⟩
  · have hxy := h y (hops y hy)
    rw [beq_self_eq_true] at hxy
    rwa [beq_iff_eq.mp hxy.symm]
  · have hxy := h x (hops x hx)
    rw [beq_self_eq_true] at hxy
    rwa [beq_iff_eq.mp hxy]

end Text

/-! ### Trees -/

namespace NodeKind

/-- A node of the kind is one word. -/
def isWord : NodeKind → Bool
  | .identifier | .typeIdentifier | .numericIndex | .underscore => true
  | _ => false

end NodeKind

namespace Node

/-- A name is written at the node: it is a word, or it stands where a declaration, a type or a
member is named. -/
def Named (n : Node) : Prop :=
  n.kind.isWord = true ∨ ∃ p : Node, p.child? .name = some n ∨ p.child? .field = some n

/-- An operator is written at the node. -/
def IsOperator (n : Node) : Prop := ∃ p : Node, p.child? .operatorName = some n

/-- The name of the type that a receiver stands for, without its arguments and its option. -/
def receiverName? (receiver : Node) : Option Node :=
  match receiver.kind with
  | .typeIdentifier => some receiver
  | .instantiatedType => receiver.child? .name
  | .nullableType =>
      match _h : receiver.child? .inner with
      | some inner => inner.receiverName?
      | none => none
  | _ => none
termination_by receiver.id
decreasing_by exact Node.id_lt_of_child? _h

/-- The type before the dot in the head of a method. -/
def receiver? (method : Node) : Option Node :=
  (method.child? .receiver).bind (·.child? .receiverType)

/-- A primitive type is named at the node. -/
def isPrimitiveName (n : Node) : Bool := n.kind == .typeIdentifier && (Ty.ofName? n.text).isSome

/-- Where what is written is taken as it stands, of what a node consists of: the name of the type
before the dot in the head of a method, the path of an import directive, and the name of a primitive
type. -/
def verbatim (n : Node) : List Node :=
  (n.receiver?.bind receiverName?).toList ++ (n.child? .path).toList ++
    if n.isPrimitiveName then [n] else []

end Node

namespace Tree

/-- All stored nodes. -/
def nodes (t : Tree) : List Node := (List.range t.size).filterMap t.node?

/-- The nodes where what is written is taken as it stands. -/
def verbatim (t : Tree) : List Node := t.nodes.flatMap Node.verbatim

theorem mem_nodes (n : Node) : n ∈ n.tree.nodes :=
  List.mem_filterMap.mpr ⟨n.id, List.mem_range.mpr n.id_lt, dif_pos n.id_lt⟩

theorem tree_of_mem_nodes {t : Tree} {n : Node} (h : n ∈ t.nodes) : n.tree = t := by
  obtain ⟨i, -, hi⟩ := List.mem_filterMap.mp h
  unfold node? at hi
  split at hi
  · rw [← Option.some.inj hi]
  · cases hi

theorem mem_verbatim {m n : Node} (h : n ∈ m.verbatim) : n ∈ m.tree.verbatim :=
  List.mem_flatMap.mpr ⟨m, mem_nodes m, h⟩

end Tree

namespace Node

variable {m n receiver : Node}

theorem tree_of_child? {slot : Field} (h : m.child? slot = some n) : n.tree = m.tree :=
  tree_of_mem_children (mem_children_of_mem_slots (mem_slots_of_child? h))

theorem tree_of_receiver? (h : m.receiver? = some receiver) : receiver.tree = m.tree := by
  obtain ⟨list, hlist, hreceiver⟩ := Option.bind_eq_some_iff.mp h
  exact (tree_of_child? hreceiver).trans (tree_of_child? hlist)

theorem tree_of_receiverName? (h : receiver.receiverName? = some n) : n.tree = receiver.tree := by
  fun_induction receiverName? receiver with
  | case1 => exact congrArg tree (Option.some.inj h).symm
  | case2 => exact tree_of_child? h
  | case3 receiver hkind inner hinner ih => exact (ih h).trans (tree_of_child? hinner)
  | case4 => cases h
  | case5 => cases h

theorem receiverName?_of_nullableType (h : receiver.kind = .nullableType) :
    receiver.receiverName? = (receiver.child? .inner).bind receiverName? := by
  rw [receiverName?, h]
  dsimp only
  split <;> rename_i hinner <;> rw [hinner] <;> rfl

theorem mem_verbatim_receiver (hreceiver : m.receiver? = some receiver)
    (hname : receiver.receiverName? = some n) : n ∈ n.tree.verbatim := by
  rw [tree_of_receiverName? hname, tree_of_receiver? hreceiver]
  refine Tree.mem_verbatim (List.mem_append_left _ (List.mem_append_left _ ?_))
  rw [hreceiver, Option.bind_some, hname]
  exact List.mem_singleton_self n

theorem mem_verbatim_path (h : m.child? .path = some n) : n ∈ n.tree.verbatim := by
  rw [tree_of_child? h]
  refine Tree.mem_verbatim (List.mem_append_left _ (List.mem_append_right _ ?_))
  rw [h]
  exact List.mem_singleton_self n

theorem mem_verbatim_primitive (h : n.isPrimitiveName = true) : n ∈ n.tree.verbatim := by
  refine Tree.mem_verbatim (List.mem_append_right _ ?_)
  rw [if_pos h]
  exact List.mem_singleton_self n

end Node

/-- Two trees with the same nodes, at which the same is written but for the spelling of names. -/
structure Tree.Transcribes (t t' : Tree) : Prop extends t.Matches (fun _ _ => True) t' where
  file : t'.file = t.file
  stamp : t'.stamp = t.stamp
  isEmpty_eq : ∀ n n' : Node, n.tree = t → n'.tree = t' → n'.id = n.id →
    n'.span.isEmpty = n.span.isEmpty
  named : ∀ n n' : Node, n.tree = t → n'.tree = t' → n'.id = n.id → n.Named →
    Text.SameName n.text n'.text
  operator : ∀ n n' : Node, n.tree = t → n'.tree = t' → n'.id = n.id → n.IsOperator →
    Text.SameOperator n.text n'.text
  verbatim : ∀ n n' : Node, n.tree = t → n'.tree = t' → n'.id = n.id → n ∈ t.verbatim →
    n'.text = n.text

namespace Tree.Transcribes

theorem refl (t : Tree) : t.Transcribes t where
  root_eq := rfl
  size_eq := rfl
  node i data hi := ⟨data, hi, rfl, rfl, rfl, fun _ => trivial⟩
  file := rfl
  stamp := rfl
  isEmpty_eq n n' hn hn' hid := by
    obtain rfl : n' = n := Node.eq_of_id_eq (hn'.trans hn.symm) hid
    rfl
  named n n' hn hn' hid _ := by
    obtain rfl : n' = n := Node.eq_of_id_eq (hn'.trans hn.symm) hid
    exact .refl _
  operator n n' hn hn' hid _ := by
    obtain rfl : n' = n := Node.eq_of_id_eq (hn'.trans hn.symm) hid
    exact fun _ _ => rfl
  verbatim n n' hn hn' hid _ := by
    obtain rfl : n' = n := Node.eq_of_id_eq (hn'.trans hn.symm) hid
    rfl

end Tree.Transcribes

/-- Another spelling for each tree. -/
structure Transcription where
  tree : Tree → Tree
  transcribes : ∀ t : Tree, t.Transcribes (tree t)

namespace Transcription

variable (φ : Transcription) {m n p c : Node}

/-- The node at the same position of the other tree. -/
def node (n : Node) : Node :=
  ⟨φ.tree n.tree, n.id, n.id_lt.trans_eq (φ.transcribes n.tree).size_eq.symm⟩

@[simp] theorem tree_node (n : Node) : (φ.node n).tree = φ.tree n.tree := rfl

@[simp] theorem id_node (n : Node) : (φ.node n).id = n.id := rfl

theorem node_eq_of_id_eq (htree : m.tree = φ.tree n.tree) (hid : m.id = n.id) : m = φ.node n :=
  Node.eq_of_id_eq htree hid

@[simp] theorem file_node (n : Node) : (φ.node n).file = n.file := (φ.transcribes n.tree).file

@[simp] theorem key_node (n : Node) : (φ.node n).key = n.key :=
  congrArg (NodeKey.mk · n.id) (φ.file_node n)

@[simp] theorem beq_node (m n : Node) : (φ.node m == φ.node n) = (m == n) := by
  change (m.id == n.id && (φ.tree m.tree).stamp == (φ.tree n.tree).stamp) = _
  rw [(φ.transcribes m.tree).stamp, (φ.transcribes n.tree).stamp]
  rfl

@[simp] theorem node_rootNode (t : Tree) : (φ.tree t).rootNode = φ.node t.rootNode :=
  φ.node_eq_of_id_eq rfl (φ.transcribes t).root_eq

theorem data_node (n : Node) : (φ.node n).data.kind = n.data.kind ∧
    (φ.node n).data.parent = n.data.parent ∧ (φ.node n).data.children = n.data.children := by
  obtain ⟨data, hdata, hkind, hparent, hchildren, -⟩ :=
    (φ.transcribes n.tree).node n.id n.data n.node?_id
  rw [Node.data_eq (n := φ.node n) hdata]
  exact ⟨hkind, hparent, hchildren⟩

@[simp] theorem kind_node (n : Node) : (φ.node n).kind = n.kind := (φ.data_node n).1

/-! ### Going down -/

@[simp] theorem slots_node (n : Node) :
    (φ.node n).slots = n.slots.map fun s => (s.1, φ.node s.2) := by
  have hslots : ∀ m : Node, m.slots.map (fun s => (s.1, s.2.id)) =
      m.data.children.map fun c => (c.field, c.node) := by
    intro m
    rw [Node.slots, List.map_map]
    exact List.attach_map_val (f := fun c : Child => (c.field, c.node)) (l := m.data.children)
  have hids : (φ.node n).slots.map (fun s => (s.1, s.2.id)) =
      (n.slots.map fun s => (s.1, φ.node s.2)).map fun s => (s.1, s.2.id) := by
    rw [hslots, (φ.data_node n).2.2, List.map_map]
    exact (hslots n).symm
  have hlength := congrArg List.length hids
  rw [List.length_map, List.length_map] at hlength
  refine List.ext_getElem hlength fun i hi hi' => ?_
  have hget := congrArg (·[i]?) hids
  simp only [List.getElem?_map, List.getElem?_eq_getElem hi, List.getElem?_eq_getElem hi',
    Option.map_some, Option.some.injEq] at hget
  obtain ⟨hslot, hid⟩ := Prod.ext_iff.mp hget
  refine Prod.ext hslot (Node.eq_of_id_eq ?_ hid)
  have hmem : ((φ.node n).slots[i].1, (φ.node n).slots[i].2) ∈ (φ.node n).slots :=
    List.getElem_mem hi
  have hi'' : i < n.slots.length := by simpa using hi'
  have hmem' : (n.slots[i].1, n.slots[i].2) ∈ n.slots := List.getElem_mem hi''
  rw [(Node.mem_slots_iff.mp hmem).1, List.getElem_map]
  exact congrArg φ.tree (Node.mem_slots_iff.mp hmem').1.symm

@[simp] theorem children_node (n : Node) : (φ.node n).children = n.children.map φ.node := by
  rw [Node.children, slots_node, List.map_map, Node.children, List.map_map]
  rfl

@[simp] theorem child?_node (n : Node) (slot : Field) :
    (φ.node n).child? slot = (n.child? slot).map φ.node := by
  rw [Node.child?, slots_node, List.find?_map, Option.map_map, Node.child?, Option.map_map]
  rfl

@[simp] theorem childrenIn_node (n : Node) (slot : Field) :
    (φ.node n).childrenIn slot = (n.childrenIn slot).map φ.node := by
  rw [Node.childrenIn, slots_node, List.filter_map, List.map_map, Node.childrenIn, List.map_map]
  rfl

/-- A test of the kind of a node has the same outcome. -/
theorem kind_beq_comp_node (kind : NodeKind) :
    (fun n : Node => n.kind == kind) ∘ φ.node = fun n => n.kind == kind := by
  funext n
  rw [Function.comp_apply, kind_node]

@[simp] theorem childrenOfKind_node (n : Node) (kind : NodeKind) :
    (φ.node n).childrenOfKind kind = (n.childrenOfKind kind).map φ.node := by
  rw [Node.childrenOfKind, children_node, List.filter_map, kind_beq_comp_node]
  rfl

@[simp] theorem preorder_node (n : Node) : (φ.node n).preorder = n.preorder.map φ.node := by
  induction n using Node.preorder.induct with
  | case1 n ih =>
      rw [Node.preorder_eq, children_node, Node.preorder_eq n, List.map_cons, List.flatMap_map,
        List.map_flatMap]
      exact congrArg _ (List.flatMap_congr fun c hc => ih ⟨c, hc⟩)

/-! ### Going up -/

@[simp] theorem parent?_node (n : Node) : (φ.node n).parent? = n.parent?.map φ.node := by
  have hparent := (φ.node n).map_id_parent?
  rw [(φ.data_node n).2.1, ← n.map_id_parent?] at hparent
  cases hp : n.parent? with
  | none =>
      rw [hp, Option.map_none] at hparent
      exact Option.map_eq_none_iff.mp hparent
  | some p =>
      rw [hp, Option.map_some] at hparent
      obtain ⟨q, hq, hid⟩ := Option.map_eq_some_iff.mp hparent
      rw [hq, Option.map_some]
      refine congrArg some (φ.node_eq_of_id_eq ?_ hid)
      rw [(Node.id_lt_of_parent? hq).2, tree_node, (Node.id_lt_of_parent? hp).2]

@[simp] theorem slot?_node (n : Node) : (φ.node n).slot? = n.slot? := by
  unfold Node.slot?
  rw [parent?_node]
  cases n.parent? with
  | none => rfl
  | some p =>
      rw [Option.map_some]
      dsimp only
      rw [(φ.data_node p).2.2]
      rfl

@[simp] theorem ancestors_node (n : Node) : (φ.node n).ancestors = n.ancestors.map φ.node := by
  fun_induction Node.ancestors n with
  | case1 n p hp ih =>
      rw [Node.ancestors_of_parent? ((φ.parent?_node n).trans (congrArg _ hp)), List.map_cons, ih]
  | case2 n hp => exact Node.ancestors_of_parent?_none ((φ.parent?_node n).trans (congrArg _ hp))

@[simp] theorem ancestorOfKind?_node (n : Node) (kind : NodeKind) :
    (φ.node n).ancestorOfKind? kind = (n.ancestorOfKind? kind).map φ.node := by
  rw [Node.ancestorOfKind?, ancestors_node, List.find?_map, kind_beq_comp_node]
  rfl

/-! ### What is written -/

/-- The same name is written at the node and at the one at the same position. -/
def SameName (n : Node) : Prop := Text.SameName n.text (φ.node n).text

theorem sameName_node (h : n.Named) : φ.SameName n :=
  (φ.transcribes n.tree).named n (φ.node n) rfl rfl rfl h

theorem isEmpty_span_node (n : Node) : (φ.node n).span.isEmpty = n.span.isEmpty :=
  (φ.transcribes n.tree).isEmpty_eq n (φ.node n) rfl rfl rfl

theorem sameOperator_node (h : n.IsOperator) : Text.SameOperator n.text (φ.node n).text :=
  (φ.transcribes n.tree).operator n (φ.node n) rfl rfl rfl h

@[simp] theorem receiver?_node (n : Node) : (φ.node n).receiver? = n.receiver?.map φ.node := by
  unfold Node.receiver?
  rw [child?_node]
  cases n.child? .receiver with
  | none => rfl
  | some receiver => exact φ.child?_node receiver .receiverType

theorem text_node (h : n ∈ n.tree.verbatim) : (φ.node n).text = n.text :=
  (φ.transcribes n.tree).verbatim n (φ.node n) rfl rfl rfl h

end Transcription

end TolkAnalysis
