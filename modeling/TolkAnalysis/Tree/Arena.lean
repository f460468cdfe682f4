import TolkAnalysis.Source.Span
import TolkAnalysis.Tree.Field
import TolkAnalysis.Tree.Kind

/-!
# Arenas of syntax nodes

A tree is built bottom up in an arena, a list of nodes that refer to each
other by position. `Arena.push` adds a node above children that are already
there and makes it their parent; `Arena.truncate` goes back to an earlier
length and forgets every parent link to a node that is gone.

Two facts hold of every arena and are part of its type: a child is stored
before the node that lists it, and a parent link names a later node that is
stored. So neither going down nor going up can run in a circle.
-/

namespace TolkAnalysis

/-- A child of a node: its slot, if it has one, and its position. -/
structure Child where
  field : Option Field
  node : Nat
deriving DecidableEq, Inhabited

namespace Child

/-- A child in a named slot. -/
def labeled (slot : Field) (node : Nat) : Child := ⟨some slot, node⟩

/-- A child without a slot. -/
def plain (node : Nat) : Child := ⟨none, node⟩

@[simp] theorem labeled_eq (slot : Field) (node : Nat) : labeled slot node = ⟨some slot, node⟩ :=
  rfl

@[simp] theorem plain_eq (node : Nat) : plain node = ⟨none, node⟩ := rfl

end Child

/-- What is stored of a node. -/
structure NodeData where
  kind : NodeKind
  span : Span
  parent : Option Nat
  children : List Child
deriving DecidableEq, Inhabited

namespace NodeData

/-- A stored node at position `i` of an arena of `n` nodes points down to
earlier and up to later positions only. -/
structure Placed (n i : Nat) (data : NodeData) : Prop where
  child_lt : ∀ c ∈ data.children, c.node < i
  parent_gt : ∀ p, data.parent = some p → i < p ∧ p < n

theorem Placed.mono {n m i : Nat} {data : NodeData} (h : Placed n i data) (hnm : n ≤ m) :
    Placed m i data where
  child_lt := h.child_lt
  parent_gt p hp := ⟨(h.parent_gt p hp).1, Nat.lt_of_lt_of_le (h.parent_gt p hp).2 hnm⟩

end NodeData

/-- Stored nodes, each of them placed. -/
structure Arena where
  nodes : Array NodeData
  placed : ∀ i, (h : i < nodes.size) → NodeData.Placed nodes.size i nodes[i]

namespace Arena

/-- Number of stored nodes. -/
def size (a : Arena) : Nat := a.nodes.size

/-- The arena without nodes. -/
def empty : Arena := ⟨#[], fun i h => absurd h (Nat.not_lt_zero i)⟩

instance : Inhabited Arena := ⟨empty⟩

/-- Makes `parent` the parent of a stored child. -/
def adopt (parent : Nat) (nodes : Array NodeData) (child : Child) : Array NodeData :=
  nodes.modify child.node fun data => { data with parent := some parent }

theorem size_adopt (parent : Nat) (nodes : Array NodeData) (child : Child) :
    (adopt parent nodes child).size = nodes.size := by
  simp [adopt]

theorem size_foldl_adopt (parent : Nat) (children : List Child) (nodes : Array NodeData) :
    (children.foldl (adopt parent) nodes).size = nodes.size := by
  induction children generalizing nodes with
  | nil => rfl
  | cons c cs ih => rw [List.foldl_cons, ih, size_adopt]

/-- Adopting leaves every node placed, in an arena that is to have one node more. -/
theorem placed_foldl_adopt {n : Nat} (children : List Child) (nodes : Array NodeData)
    (hn : nodes.size = n)
    (h : ∀ i, (hi : i < nodes.size) → NodeData.Placed (n + 1) i nodes[i]) :
    ∀ i, (hi : i < (children.foldl (adopt n) nodes).size) →
      NodeData.Placed (n + 1) i (children.foldl (adopt n) nodes)[i] := by
  induction children generalizing nodes with
  | nil => exact h
  | cons c cs ih =>
    refine ih (adopt n nodes c) (by rw [size_adopt, hn]) ?_
    intro i hi
    have hi' : i < nodes.size := by rwa [size_adopt] at hi
    have hp := h i hi'
    simp only [adopt, Array.getElem_modify]
    split
    · refine ⟨hp.child_lt, ?_⟩
      intro p hq
      cases hq
      omega
    · exact hp

/-- The children of a list that are stored already. -/
def stored (a : Arena) (children : List Child) : List Child :=
  children.filter (·.node < a.size)

/-- The stored nodes after a push. -/
def pushedNodes (a : Arena) (kind : NodeKind) (span : Span) (children : List Child) :
    Array NodeData :=
  ((a.stored children).foldl (adopt a.size) a.nodes).push ⟨kind, span, none, a.stored children⟩

/-- Adds a node above stored children and makes it their parent. The new node
takes the position `a.size`; a child that is not stored is left out. -/
def push (a : Arena) (kind : NodeKind) (span : Span) (children : List Child) : Arena where
  nodes := a.pushedNodes kind span children
  placed := by
    intro i hi
    have hsize : (a.pushedNodes kind span children).size = a.size + 1 := by
      simp [pushedNodes, size_foldl_adopt, size]
    have hall := placed_foldl_adopt (n := a.size) (a.stored children) a.nodes rfl
      (fun j hj => (a.placed j hj).mono (Nat.le_succ _))
    rw [hsize] at hi ⊢
    simp only [pushedNodes, Array.getElem_push]
    split
    · exact hall i (by assumption)
    · rename_i hlt
      rw [size_foldl_adopt] at hlt
      have hi' : i = a.size := by
        have : ¬ i < a.size := hlt
        omega
      refine ⟨?_, fun p hp => by cases hp⟩
      intro c hc
      have := (List.mem_filter.mp hc).2
      simp only [decide_eq_true_eq] at this
      omega

@[simp] theorem size_push (a : Arena) (kind : NodeKind) (span : Span) (children : List Child) :
    (a.push kind span children).size = a.size + 1 := by
  simp [push, pushedNodes, size_foldl_adopt, size]

/-- Forgets the parent of a node if it is at position `length` or later. -/
def orphan (length : Nat) (data : NodeData) : NodeData :=
  match data.parent with
  | some p => if length ≤ p then { data with parent := none } else data
  | none => data

theorem children_orphan (length : Nat) (data : NodeData) :
    (orphan length data).children = data.children := by
  unfold orphan
  split <;> try split
  all_goals rfl

theorem parent_orphan {length p : Nat} {data : NodeData}
    (h : (orphan length data).parent = some p) : data.parent = some p ∧ p < length := by
  unfold orphan at h
  split at h
  · rename_i q hq
    split at h
    · cases h
    · rw [hq] at h
      cases h
      exact ⟨hq, by omega⟩
  · rename_i hq
    rw [hq] at h
    cases h

/-- Goes back to the first `length` nodes. A parent link to a node that is gone
is forgotten. -/
def truncate (a : Arena) (length : Nat) : Arena :=
  if h : a.size ≤ length then a
  else
    { nodes := (a.nodes.take length).map (orphan length)
      placed := by
        have hlen : length < a.nodes.size := Nat.not_le.mp h
        have hsize : ((a.nodes.take length).map (orphan length)).size = length := by
          simp; omega
        intro i hi
        rw [hsize] at hi ⊢
        have htake : i < (a.nodes.take length).size := by simp; omega
        have hnode : i < a.nodes.size := by omega
        have hget : (a.nodes.take length)[i] = a.nodes[i] := by simp
        simp only [Array.getElem_map, hget]
        have hp := a.placed i hnode
        refine ⟨?_, ?_⟩
        · rw [children_orphan]
          exact hp.child_lt
        · intro p hq
          obtain ⟨hpar, hlt⟩ := parent_orphan hq
          exact ⟨(hp.parent_gt p hpar).1, hlt⟩ }

theorem truncate_of_size_le {a : Arena} {length : Nat} (h : a.size ≤ length) :
    a.truncate length = a := by
  simp [truncate, h]

theorem size_truncate (a : Arena) (length : Nat) :
    (a.truncate length).size = min a.size length := by
  unfold truncate
  split
  · omega
  · simp [size] at *
    omega

end Arena

end TolkAnalysis
