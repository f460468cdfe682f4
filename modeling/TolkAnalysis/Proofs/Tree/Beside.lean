import TolkAnalysis.Proofs.Tree.Arena

/-!
# Arenas beside each other

Two parsers that read tokens of the same kinds build the same nodes, but one of them may have
built other nodes before, so that all its positions are shifted, and its tokens may stand
elsewhere, so that its spans differ. `Arena.Beside base spans a b` says that `b` holds the nodes
of `base` and after them those of `a`, shifted by the size of `base`, with spans that are related
by `spans`. Pushing a node and cutting back keep this.
-/

namespace TolkAnalysis

/-- A child that is stored a number of positions later. -/
def Child.shift (distance : Nat) (c : Child) : Child := ⟨c.field, c.node + distance⟩

@[simp] theorem Child.shift_zero : Child.shift 0 = id := rfl

/-- A node that stands elsewhere, with relatives that are stored a number of positions later. -/
def NodeData.shift (distance : Nat) (place : Span → Span) (data : NodeData) : NodeData :=
  ⟨data.kind, place data.span, data.parent.map (· + distance),
    data.children.map (Child.shift distance)⟩

@[simp] theorem NodeData.shift_zero : NodeData.shift 0 id = id := by
  funext data
  simp [NodeData.shift]

/-- A stored node whose relatives are stored a number of positions later. -/
structure NodeData.Shifted (distance : Nat) (spans : Span → Span → Prop) (data data' : NodeData) :
    Prop where
  kind : data'.kind = data.kind
  span : spans data.span data'.span
  parent : data'.parent = data.parent.map (· + distance)
  children : data'.children = data.children.map (Child.shift distance)

namespace Arena

/-- The second arena holds the nodes of `base` and after them those of the first one. -/
structure Beside (base : Arena) (spans : Span → Span → Prop) (a b : Arena) : Prop where
  kept : base.Kept b
  size_eq : b.size = a.size + base.size
  node : ∀ i data, a.node? i = some data →
    ∃ data', b.node? (i + base.size) = some data' ∧ data.Shifted base.size spans data'

variable {base a b : Arena} {spans : Span → Span → Prop} {kind : NodeKind} {span : Span}
  {children : List Child}

/-- What a push does to each node, also if children are not stored. -/
theorem node?_push_stored (i : Nat) :
    (a.push kind span children).node? i =
      if i = a.size then some ⟨kind, span, none, a.stored children⟩
      else (a.node? i).map fun data =>
        if i ∈ children.map (·.node) then { data with parent := some a.size } else data := by
  change (a.pushedNodes kind span children)[i]? = _
  rw [pushedNodes, Array.getElem?_push, size_foldl_adopt]
  change (if i = a.size then _ else _) = _
  split
  · rfl
  · rw [getElem?_foldl_adopt]
    cases hi : a.node? i with
    | none =>
        change a.nodes[i]? = none at hi
        rw [hi]
        rfl
    | some data =>
        have hlt := lt_of_node? hi
        have hmem : i ∈ (a.stored children).map (·.node) ↔ i ∈ children.map (·.node) := by
          simp only [stored, List.mem_map, List.mem_filter, decide_eq_true_eq]
          constructor
          · rintro ⟨c, ⟨hc, -⟩, hci⟩
            exact ⟨c, hc, hci⟩
          · rintro ⟨c, hc, hci⟩
            exact ⟨c, ⟨hc, hci ▸ hlt⟩, hci⟩
        change a.nodes[i]? = some data at hi
        rw [hi]
        simp only [hmem]

/-- A push leaves the spans of the nodes before. -/
theorem span_push (kind : NodeKind) (span : Span) (children : List Child) {i : Nat}
    (h : i ≠ a.size) :
    ((a.push kind span children).node? i).map (·.span) = (a.node? i).map (·.span) := by
  rw [node?_push_stored, if_neg h, Option.map_map]
  congr 1
  funext data
  dsimp only [Function.comp_apply]
  split <;> rfl

/-- What cutting back does to each node. -/
theorem node?_truncate (length i : Nat) :
    (a.truncate length).node? i = if i < length then (a.node? i).map (orphan length) else none := by
  unfold truncate
  split
  · rename_i hle
    cases hi : a.node? i with
    | none => simp
    | some data =>
        have hlt := lt_of_node? hi
        obtain ⟨hsize, hget⟩ := node?_eq_some_iff.1 hi
        have hsame : orphan length data = data := by
          unfold orphan
          split
          · rename_i p hp
            have hparent := ((a.placed i hsize).parent_gt p (hget ▸ hp)).2
            rw [if_neg (Nat.not_le.2 (lt_of_lt_of_le hparent hle))]
          · rfl
        rw [if_pos (lt_of_lt_of_le hlt hle), Option.map_some, hsame]
  · change ((a.nodes.take length).map (orphan length))[i]? = _
    rw [Array.getElem?_map, Array.take_eq_extract, Array.getElem?_extract]
    by_cases hi : i < length
    · have hmin : i < min length a.nodes.size - 0 ↔ i < a.nodes.size := by omega
      simp only [hmin, Nat.zero_add, hi, if_true]
      split
      · rfl
      · rw [node?_eq_none (Nat.not_lt.1 ‹_›)]
    · rw [if_neg (by omega), if_neg hi]
      rfl

/-- A node of an arena is kept when it is cut back to that arena or a longer one. -/
theorem Kept.truncate (h : base.Kept b) {length : Nat} (hle : base.size ≤ length) :
    base.Kept (b.truncate length) := by
  intro i data hi
  have hlt := lt_of_node? hi
  obtain ⟨hsize, hget⟩ := node?_eq_some_iff.1 hi
  rw [node?_truncate, if_pos (lt_of_lt_of_le hlt hle), h i data hi, Option.map_some]
  unfold orphan
  split
  · rename_i p hp
    have hparent := ((base.placed i hsize).parent_gt p (hget ▸ hp)).2
    rw [if_neg (Nat.not_le.2 (lt_of_lt_of_le hparent hle))]
  · rfl

namespace Beside

theorem refl (spans : Span → Span → Prop) (base : Arena) : Beside base spans .empty base where
  kept := .refl base
  size_eq := (Nat.zero_add _).symm
  node i _ hi := absurd (lt_of_node? hi) (Nat.not_lt_zero i)

/-- The nodes at corresponding positions are of one kind. -/
theorem kind_eq (h : Beside base spans a b) (i : Nat) :
    (b.node? (i + base.size)).map (·.kind) = (a.node? i).map (·.kind) := by
  cases hi : a.node? i with
  | none =>
      have hsize : a.size ≤ i := by
        by_contra hlt
        obtain ⟨data, hdata⟩ := exists_node? (Nat.not_le.1 hlt)
        rw [hi] at hdata
        cases hdata
      rw [node?_eq_none (by rw [h.size_eq]; omega)]
  | some data =>
      obtain ⟨data', hi', hlike⟩ := h.node i data hi
      rw [hi', Option.map_some, Option.map_some, hlike.kind]

/-- The arena of both is the first one and after it the second one, at other places. -/
theorem nodes_eq {place : Span → Span} (h : Beside base (fun s s' => s' = place s) a b) :
    b.nodes = base.nodes ++ a.nodes.map (NodeData.shift base.size place) := by
  refine Array.ext_getElem? fun i => ?_
  rw [Array.getElem?_append, Array.getElem?_map]
  split
  · rename_i hlt
    obtain ⟨data, hdata⟩ := exists_node? (a := base) hlt
    exact (h.kept i data hdata).trans hdata.symm
  · rename_i hlt
    obtain ⟨j, rfl⟩ := Nat.exists_eq_add_of_le' (Nat.not_lt.1 hlt)
    have hj : j + base.nodes.size - base.nodes.size = j := Nat.add_sub_cancel j _
    rw [hj]
    change b.node? (j + base.size) = (a.node? j).map _
    cases hdata : a.node? j with
    | none =>
        have hkind := h.kind_eq j
        rw [hdata] at hkind
        exact Option.map_eq_none_iff.mp hkind
    | some data =>
        obtain ⟨⟨kind, span, parent, children⟩, hdata', hlike⟩ := h.node j data hdata
        rw [hdata']
        obtain ⟨rfl, rfl, rfl, rfl⟩ := hlike
        rfl

theorem mono {spans' : Span → Span → Prop} (h : Beside base spans a b)
    (hspans : ∀ s s', spans s s' → spans' s s') : Beside base spans' a b where
  kept := h.kept
  size_eq := h.size_eq
  node i data hi := by
    obtain ⟨data', hi', hlike⟩ := h.node i data hi
    exact ⟨data', hi', hlike.kind, hspans _ _ hlike.span, hlike.parent, hlike.children⟩

theorem stored_shift (h : Beside base spans a b) (children : List Child) :
    b.stored (children.map (Child.shift base.size)) =
      (a.stored children).map (Child.shift base.size) := by
  unfold stored
  rw [List.filter_map, h.size_eq]
  congr 2
  funext c
  simp [Child.shift]

/-- Corresponding nodes are pushed above corresponding children. -/
theorem push (h : Beside base spans a b) {span' : Span} (hspan : spans span span') :
    Beside base spans (a.push kind span children)
      (b.push kind span' (children.map (Child.shift base.size))) := by
  have hmem : ∀ i, i + base.size ∈ (children.map (Child.shift base.size)).map (·.node) ↔
      i ∈ children.map (·.node) := by
    intro i
    simp [Child.shift]
  refine ⟨fun i data hi => ?_, by rw [size_push, size_push, h.size_eq]; omega, fun i data hi => ?_⟩
  · have hlt := lt_of_node? hi
    have hnot : i ∉ (children.map (Child.shift base.size)).map (·.node) := by
      simp only [List.map_map, List.mem_map, Function.comp_apply, Child.shift, not_exists, not_and]
      intro c _
      omega
    rw [node?_push_stored, if_neg (by rw [h.size_eq]; omega), h.kept i data hi, Option.map_some,
      if_neg hnot]
  · rw [node?_push_stored] at hi ⊢
    rw [h.size_eq]
    by_cases hlast : i = a.size
    · rw [if_pos hlast] at hi
      cases hi
      rw [if_pos (by omega)]
      exact ⟨_, rfl, rfl, hspan, rfl, h.stored_shift children⟩
    · rw [if_neg hlast] at hi
      rw [if_neg (by omega)]
      obtain ⟨old, hold, rfl⟩ := Option.map_eq_some_iff.1 hi
      obtain ⟨old', hold', hlike⟩ := h.node i old hold
      rw [hold', Option.map_some]
      simp only [hmem]
      split
      · exact ⟨_, rfl, hlike.kind, hlike.span, rfl, hlike.children⟩
      · exact ⟨_, rfl, hlike⟩

/-- Corresponding nodes stay when both arenas are cut back to corresponding lengths. -/
theorem truncate (h : Beside base spans a b) (length : Nat) :
    Beside base spans (a.truncate length) (b.truncate (length + base.size)) := by
  refine ⟨h.kept.truncate (Nat.le_add_left _ _), ?_, fun i data hi => ?_⟩
  · rw [size_truncate, size_truncate, h.size_eq]
    omega
  · rw [node?_truncate] at hi ⊢
    split at hi
    · rename_i hlt
      rw [if_pos (by omega)]
      obtain ⟨old, hold, rfl⟩ := Option.map_eq_some_iff.1 hi
      obtain ⟨old', hold', hlike⟩ := h.node i old hold
      refine ⟨_, by rw [hold', Option.map_some], ?_⟩
      have hparent := hlike.parent
      cases hp : old.parent with
      | none =>
          rw [hp] at hparent
          have hold : orphan length old = old := by unfold orphan; rw [hp]
          have hold' : orphan (length + base.size) old' = old' := by
            unfold orphan
            rw [hparent]
            rfl
          rwa [hold, hold']
      | some p =>
          rw [hp] at hparent
          have hiff : length + base.size ≤ p + base.size ↔ length ≤ p := by omega
          unfold orphan
          rw [hp, hparent]
          simp only [Option.map_some, hiff]
          split
          · exact ⟨hlike.kind, hlike.span, rfl, hlike.children⟩
          · exact hlike
    · cases hi

end Beside

end Arena

end TolkAnalysis
