import TolkAnalysis.Source.Line
import TolkAnalysis.Text.Enclosed
import TolkAnalysis.Tree.Arena

/-!
# Syntax trees and their nodes

A tree is an arena with a root, together with the text it was read from. A
node is a position in a tree, so it can be asked for its parent and its
siblings as well as for its children. Going up a tree increases the position
and going down decreases it, which is why every walk below ends.

Two trees may hold the same file at different times. Their stamps tell them
apart, and a node is equal only to itself in the same tree. `Node.key` forgets
the tree and keeps the file.
-/

namespace TolkAnalysis

/-- The number of a file in a session. -/
abbrev FileId := Nat

/-- A position in the tree of a file, whichever tree that is. -/
structure NodeKey where
  file : FileId
  node : Nat
deriving DecidableEq, Hashable, Inhabited

/-- The syntax tree of one text. -/
structure Tree where
  file : FileId
  /-- Tells apart the trees that a session has loaded. -/
  stamp : Nat
  source : String
  /-- The text in UTF-8. -/
  bytes : ByteArray := source.toByteArray
  bytes_eq : bytes = source.toByteArray := by rfl
  arena : Arena
  root : Nat
  root_lt : root < arena.size

namespace Tree

/-- Number of stored nodes, those that no parent lists included. -/
def size (t : Tree) : Nat := t.arena.size

/-- The line and column of a byte offset. -/
def position (t : Tree) (offset : Nat) : Position :=
  (LineIndex.ofSource t.source).position offset

/-- A short account of a tree: its file and its number of nodes. -/
def summary (t : Tree) : String :=
  "SyntaxTree \x7b file: FileId(" ++ toString t.file ++ "), nodes: " ++ toString t.size ++ ", .. \x7d"

end Tree

/-- A node of a tree. -/
structure Node where
  tree : Tree
  id : Nat
  id_lt : id < tree.arena.size

/-- The root of a tree. -/
def Tree.rootNode (t : Tree) : Node := ⟨t, t.root, t.root_lt⟩

/-- The node at a position, if there is one. -/
def Tree.node? (t : Tree) (id : Nat) : Option Node :=
  if h : id < t.arena.size then some ⟨t, id, h⟩ else none

namespace Node

/-- Equal nodes have the same position in the same tree. -/
instance : BEq Node := ⟨fun m n => m.id == n.id && m.tree.stamp == n.tree.stamp⟩

/-- What is stored of a node. -/
def data (n : Node) : NodeData :=
  have := n.id_lt
  n.tree.arena.nodes[n.id]

theorem placed_data (n : Node) : NodeData.Placed n.tree.arena.size n.id n.data :=
  n.tree.arena.placed n.id n.id_lt

/-- The file of the tree. -/
def file (n : Node) : FileId := n.tree.file

/-- The file and the position. -/
def key (n : Node) : NodeKey := ⟨n.tree.file, n.id⟩

/-- What the node is. -/
def kind (n : Node) : NodeKind := n.data.kind

/-- The place of the node in the text. -/
def span (n : Node) : Span := n.data.span

/-- The text that the node covers. -/
def text (n : Node) : String := Text.slice n.tree.bytes n.span.start n.span.stop

/-- Where the node begins. -/
def startPosition (n : Node) : Position := n.tree.position n.span.start

/-- Where the node ends. -/
def stopPosition (n : Node) : Position := n.tree.position n.span.stop

/-- A node is written as its kind and its place. -/
def label (n : Node) : String := n.kind.name ++ "@" ++ n.span.text

/-- The parent, if the node has one. -/
def parent? (n : Node) : Option Node :=
  match h : n.data.parent with
  | some p => some ⟨n.tree, p, (n.placed_data.parent_gt p h).2⟩
  | none => none

theorem id_lt_of_parent? {n p : Node} (h : n.parent? = some p) :
    n.id < p.id ∧ p.tree = n.tree := by
  unfold parent? at h
  split at h
  · rename_i q hq
    cases h
    exact ⟨(n.placed_data.parent_gt q hq).1, rfl⟩
  · cases h

/-- The strict ancestors, innermost first. -/
def ancestors (n : Node) : List Node :=
  match _h : n.parent? with
  | some p => p :: p.ancestors
  | none => []
termination_by n.tree.arena.size - n.id
decreasing_by
  have := id_lt_of_parent? _h
  have hp := p.id_lt
  rw [this.2] at hp ⊢
  omega

/-- The children with their slots, in order. -/
def slots (n : Node) : List (Option Field × Node) :=
  n.data.children.attach.map fun c =>
    (c.1.field, ⟨n.tree, c.1.node, Nat.lt_trans (n.placed_data.child_lt c.1 c.2) n.id_lt⟩)

/-- The children, in order. -/
def children (n : Node) : List Node := n.slots.map (·.2)

theorem id_lt_of_mem_slots {n : Node} {s : Option Field × Node} (h : s ∈ n.slots) :
    s.2.id < n.id := by
  obtain ⟨c, -, rfl⟩ := List.mem_map.mp h
  exact n.placed_data.child_lt c.1 c.2

theorem id_lt_of_mem_children {n c : Node} (h : c ∈ n.children) : c.id < n.id := by
  obtain ⟨s, hs, rfl⟩ := List.mem_map.mp h
  exact id_lt_of_mem_slots hs

/-- The first child in a slot. -/
def child? (n : Node) (slot : Field) : Option Node :=
  (n.slots.find? (·.1 == some slot)).map (·.2)

theorem id_lt_of_child? {n c : Node} {slot : Field} (h : n.child? slot = some c) :
    c.id < n.id := by
  obtain ⟨s, hs, rfl⟩ := Option.map_eq_some_iff.mp h
  exact id_lt_of_mem_slots (List.mem_of_find?_eq_some hs)

/-- The children in a slot. -/
def childrenIn (n : Node) (slot : Field) : List Node :=
  (n.slots.filter (·.1 == some slot)).map (·.2)

/-- The children of a kind. -/
def childrenOfKind (n : Node) (kind : NodeKind) : List Node :=
  n.children.filter (·.kind == kind)

/-- The last child. -/
def lastChild? (n : Node) : Option Node := n.children.getLast?

/-- The slot under which the parent lists the node. -/
def slot? (n : Node) : Option Field :=
  match n.parent? with
  | some p => (p.data.children.find? (·.node == n.id)).bind (·.field)
  | none => none

/-- The node after this one below the same parent. -/
def next? (n : Node) : Option Node := do
  let siblings := (← n.parent?).children
  let i ← siblings.findIdx? (·.id == n.id)
  siblings[i + 1]?

/-- The node before this one below the same parent. -/
def previous? (n : Node) : Option Node := do
  let siblings := (← n.parent?).children
  match ← siblings.findIdx? (·.id == n.id) with
  | 0 => none
  | i + 1 => siblings[i]?

/-- The closest strict ancestor of a kind. -/
def ancestorOfKind? (n : Node) (kind : NodeKind) : Option Node :=
  n.ancestors.find? (·.kind == kind)

/-- The node is `other` or lies below it. -/
def isWithin (n other : Node) : Bool :=
  n == other || n.ancestors.any (· == other)

/-- From `n`, the node reached by going down to the first child that covers an
offset as long as there is one. -/
def descend (offset : Nat) (n : Node) : Node :=
  match _h : n.children.find? (·.span.contains offset) with
  | some c => c.descend offset
  | none => n
termination_by n.id
decreasing_by exact id_lt_of_mem_children (List.mem_of_find?_eq_some _h)

/-- The node and everything below it, every node before its children. -/
def preorder (n : Node) : List Node :=
  n :: n.children.attach.flatMap fun c => c.1.preorder
termination_by n.id
decreasing_by exact id_lt_of_mem_children c.2

end Node

/-- The innermost node at an offset, if the root covers it. -/
def Tree.nodeAt? (t : Tree) (offset : Nat) : Option Node :=
  if t.rootNode.span.contains offset then some (t.rootNode.descend offset) else none

end TolkAnalysis
