import TolkAnalysis.Proofs.Tree.Beside

/-!
# Arenas that grow

`a.Stores i kind span children` says what is stored at a position, but for the parent.
`a.Extends b` says that everything that `a` stores is stored in `b`, where it may have got a
parent. Pushing a node extends an arena, and so does cutting back what extends it, if not below its
own size.

`a.Below i j` says that going down from the node at position `i` leads to the one at `j`. A parser
puts a node above every node that it builds, but for the annotations of an import: nothing lists
them, and they stand between the start of the import and its path (`Arena.Aside`). `a.Carries i j`
says that going down from `i` leads to `j`, or to an import that has `j` aside. Extending an arena
keeps this.
-/

namespace TolkAnalysis

namespace Arena

/-- What is stored at a position, but for the parent. -/
def Stores (a : Arena) (i : Nat) (kind : NodeKind) (span : Span) (children : List Child) : Prop :=
  ∃ parent, a.node? i = some ⟨kind, span, parent, children⟩

/-- What one arena stores is stored in another one. -/
def Extends (a b : Arena) : Prop :=
  ∀ i kind span children, a.Stores i kind span children → b.Stores i kind span children

variable {a b c : Arena} {i : Nat} {kind kind' : NodeKind} {span span' : Span}
  {children children' : List Child}

namespace Stores

theorem lt (h : a.Stores i kind span children) : i < a.size := by
  obtain ⟨parent, hnode⟩ := h
  exact lt_of_node? hnode

theorem eq (h : a.Stores i kind span children) (h' : a.Stores i kind' span' children') :
    kind = kind' ∧ span = span' ∧ children = children' := by
  obtain ⟨parent, hnode⟩ := h
  obtain ⟨parent', hnode'⟩ := h'
  rw [hnode] at hnode'
  cases hnode'
  exact ⟨rfl, rfl, rfl⟩

theorem of_node? {data : NodeData} (h : a.node? i = some data) :
    a.Stores i data.kind data.span data.children := ⟨data.parent, h⟩

/-- Children are stored before the node that lists them. -/
theorem child_lt (h : a.Stores i kind span children) {child : Child} (hchild : child ∈ children) :
    child.node < i := by
  obtain ⟨parent, hnode⟩ := h
  obtain ⟨hi, hget⟩ := node?_eq_some_iff.mp hnode
  exact (a.placed i hi).child_lt child (hget ▸ hchild)

end Stores

theorem exists_stores (h : i < a.size) : ∃ kind span children, a.Stores i kind span children := by
  obtain ⟨data, hdata⟩ := exists_node? h
  exact ⟨_, _, _, .of_node? hdata⟩

/-- The node that is pushed is stored last, above those of its children that are stored. -/
theorem stores_push_last (kind : NodeKind) (span : Span) (children : List Child) :
    (a.push kind span children).Stores a.size kind span (a.stored children) :=
  ⟨none, by rw [node?_push_stored, if_pos rfl]⟩

/-- A push adds nothing but the pushed node. -/
theorem stores_of_push (h : (a.push kind span children).Stores i kind' span' children')
    (hi : i ≠ a.size) : a.Stores i kind' span' children' := by
  obtain ⟨parent, hnode⟩ := h
  rw [node?_push_stored, if_neg hi] at hnode
  obtain ⟨data, hdata, hnode⟩ := Option.map_eq_some_iff.mp hnode
  have hstores := Stores.of_node? hdata
  split at hnode <;> cases hnode <;> exact hstores

/-- What is kept with its parent is stored. -/
theorem Kept.extends (h : a.Kept b) : a.Extends b := by
  rintro i kind span children ⟨parent, hnode⟩
  exact ⟨parent, h i _ hnode⟩

namespace Extends

theorem refl (a : Arena) : a.Extends a := fun _ _ _ _ h => h

theorem trans (hab : a.Extends b) (hbc : b.Extends c) : a.Extends c :=
  fun i kind span children h => hbc i kind span children (hab i kind span children h)

theorem push (a : Arena) (kind : NodeKind) (span : Span) (children : List Child) :
    a.Extends (a.push kind span children) := by
  rintro i kind' span' children' ⟨parent, hnode⟩
  have hne : i ≠ a.size := (lt_of_node? hnode).ne
  refine ⟨if i ∈ children.map (·.node) then some a.size else parent, ?_⟩
  rw [node?_push_stored, if_neg hne, hnode, Option.map_some]
  split <;> rfl

/-- What extends an arena may be cut back to what it had at least. -/
theorem truncate (h : a.Extends b) {length : Nat} (hle : a.size ≤ length) :
    a.Extends (b.truncate length) := by
  intro i kind span children hi
  obtain ⟨parent, hnode⟩ := h i kind span children hi
  have hlt : i < length := lt_of_lt_of_le hi.lt hle
  refine ⟨(orphan length ⟨kind, span, parent, children⟩).parent, ?_⟩
  rw [node?_truncate, if_pos hlt, hnode, Option.map_some]
  unfold orphan
  split
  · split <;> rfl
  · rfl

theorem size_le (h : a.Extends b) : a.size ≤ b.size := by
  by_contra hlt
  obtain ⟨kind, span, children, hstores⟩ := exists_stores (Nat.lt_of_not_le hlt)
  exact lt_irrefl _ (h _ _ _ _ hstores).lt

/-- A node of an arena of no greater size is a node of the arena that is extended. -/
theorem stores (h : a.Extends b) (hi : i < a.size) (hstores : b.Stores i kind span children) :
    a.Stores i kind span children := by
  obtain ⟨kind', span', children', hold⟩ := exists_stores hi
  obtain ⟨rfl, rfl, rfl⟩ := (h _ _ _ _ hold).eq hstores
  exact hold

end Extends

end Arena

/-! ### What a stored node carries -/

namespace Arena

/-- The span of a stored node. -/
def Spans (a : Arena) (i : Nat) (span : Span) : Prop := ∃ kind children, a.Stores i kind span children

/-- Going down from one stored node leads to another one. -/
inductive Below (a : Arena) (i : Nat) : Nat → Prop
  | refl : i < a.size → Below a i i
  | child {j : Nat} {kind : NodeKind} {span : Span} {children : List Child} {c : Child} :
      Below a i j → a.Stores j kind span children → c ∈ children → Below a i c.node

/-- A node stands between the start of an import and its path. -/
def Aside (a : Arena) (j i : Nat) : Prop :=
  ∃ span children path pathSpan inner, a.Stores j .importDirective span children ∧
    ⟨some .path, path⟩ ∈ children ∧ a.Spans path pathSpan ∧ a.Spans i inner ∧
      span.start ≤ inner.start ∧ inner.stop ≤ pathSpan.start

/-- Going down from one stored node leads to another one, or to an import that has it aside. -/
def Carries (a : Arena) (i j : Nat) : Prop := ∃ k, a.Below i k ∧ (k = j ∨ a.Aside k j)

variable {a b : Arena} {text : String} {i j k : Nat} {kind : NodeKind} {span inner : Span}
  {children : List Child} {data : NodeData}

theorem Spans.of_node? (h : a.node? i = some data) : a.Spans i data.span := ⟨_, _, .of_node? h⟩

theorem Spans.eq (h : a.Spans i span) (h' : a.Spans i inner) : span = inner := by
  obtain ⟨_, _, h⟩ := h
  obtain ⟨_, _, h'⟩ := h'
  exact (h.eq h').2.1

theorem exists_spans (h : i < a.size) : ∃ span, a.Spans i span := by
  obtain ⟨kind, span, children, hstores⟩ := exists_stores h
  exact ⟨span, kind, children, hstores⟩

theorem Spans.mono (h : a.Spans i span) (hab : a.Extends b) : b.Spans i span := by
  obtain ⟨kind, children, h⟩ := h
  exact ⟨kind, children, hab _ _ _ _ h⟩

namespace Below

theorem trans (h : a.Below i j) (h' : a.Below j k) : a.Below i k := by
  induction h' with
  | refl => exact h
  | child _ hstores hc ih => exact ih.child hstores hc

theorem mono (h : a.Below i j) (hab : a.Extends b) : b.Below i j := by
  induction h with
  | refl hi => exact .refl (lt_of_lt_of_le hi hab.size_le)
  | child _ hstores hc ih => exact ih.child (hab _ _ _ _ hstores) hc

theorem lt (h : a.Below i j) : j < a.size := by
  induction h with
  | refl hi => exact hi
  | child _ hstores hc ih => exact (hstores.child_lt hc).trans ih

end Below

theorem Aside.mono (h : a.Aside j i) (hab : a.Extends b) : b.Aside j i := by
  obtain ⟨span, children, path, pathSpan, inner, himport, hmem, hpath, hinner, hbounds⟩ := h
  exact ⟨span, children, path, pathSpan, inner, hab _ _ _ _ himport, hmem, hpath.mono hab,
    hinner.mono hab, hbounds⟩

namespace Carries

theorem refl (h : i < a.size) : a.Carries i i := ⟨i, .refl h, .inl rfl⟩

theorem mono (h : a.Carries i j) (hab : a.Extends b) : b.Carries i j := by
  obtain ⟨k, hk, hj⟩ := h
  exact ⟨k, hk.mono hab, hj.imp_right (·.mono hab)⟩

theorem exists_spans (h : a.Carries i j) : ∃ span, a.Spans j span := by
  obtain ⟨k, hk, rfl | ⟨_, _, _, _, inner, -, -, -, hinner, -⟩⟩ := h
  · exact Arena.exists_spans hk.lt
  · exact ⟨inner, hinner⟩

/-- What a child carries, the node that lists it carries. -/
theorem of_child {c : Child} (h : a.Carries c.node j) (hstores : a.Stores i kind span children)
    (hc : c ∈ children) : a.Carries i j := by
  obtain ⟨k, hk, hj⟩ := h
  exact ⟨k, ((Below.refl hstores.lt).child hstores hc).trans hk, hj⟩

end Carries

/-! ### Where they stand -/

namespace Sound

variable (ha : a.Sound text)
include ha

theorem inside_child {c : Child} (h : a.Stores i kind span children) (hc : c ∈ children)
    (hinner : a.Spans c.node inner) : span.start ≤ inner.start ∧ inner.stop ≤ span.stop := by
  obtain ⟨parent, hnode⟩ := h
  obtain ⟨data, hdata, -, hbounds⟩ := (ha i _ hnode).row.stored c hc
  rwa [hinner.eq (.of_node? hdata)]

theorem inside_below (h : a.Below i j) (hspan : a.Spans i span) (hinner : a.Spans j inner) :
    span.start ≤ inner.start ∧ inner.stop ≤ span.stop := by
  induction h generalizing inner with
  | refl =>
    obtain rfl := hspan.eq hinner
    exact ⟨le_rfl, le_rfl⟩
  | child _ hstores hc ih =>
    have habove := ih ⟨_, _, hstores⟩
    have hchild := ha.inside_child hstores hc hinner
    exact ⟨habove.1.trans hchild.1, hchild.2.trans habove.2⟩

theorem inside_carries (h : a.Carries i j) (hspan : a.Spans i span) (hinner : a.Spans j inner) :
    span.start ≤ inner.start ∧ inner.stop ≤ span.stop := by
  obtain ⟨k, hk, rfl | haside⟩ := h
  · exact ha.inside_below hk hspan hinner
  · obtain ⟨outer, children, path, pathSpan, inner', himport, hmem, hpath, hinner', hbounds⟩ := haside
    obtain rfl := hinner.eq hinner'
    have habove := ha.inside_below hk hspan ⟨_, _, himport⟩
    have hchild := ha.inside_child himport hmem hpath
    obtain ⟨_, _, _, hnode⟩ := hpath
    have hcovers := (ha path _ hnode).covers
    dsimp only at hcovers
    omega

end Sound

end Arena

end TolkAnalysis
