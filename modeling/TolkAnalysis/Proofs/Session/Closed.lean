import TolkAnalysis.Decl.View
import TolkAnalysis.Proofs.Tree.Node
import TolkAnalysis.Session.Workspace

/-!
# Closed families of nodes

A family of nodes is closed in a workspace if it holds the children and the
parents of its nodes, the root of every file and the declarations at its top. All rules
move by such steps alone: the parts of a declaration and the declarations around
a node belong to each closed family that the node belongs to.

The rules look at more nodes than they ask about. `Workspace.Asking A K` says that a
family `A` holds all nodes that the rules for nodes of the closed family `K` ask about.
-/

namespace TolkAnalysis

/-- The family holds what can be reached from its nodes and from the top of a
file. -/
structure Workspace.Closed (w : Workspace) (K : Node → Prop) : Prop where
  child : ∀ {n c : Node}, K n → c ∈ n.children → K c
  parent : ∀ {n p : Node}, K n → n.parent? = some p → K p
  element : ∀ {file : FileId} {index : FileIndex} {category : Category} {d : Decl},
    w.index? file = some index → d ∈ index.elements category → K d.node
  named : ∀ {file : FileId} {index : FileIndex} {category : Category} {name : String} {d : Decl},
    w.index? file = some index → d ∈ index.byName category name → K d.node
  root : ∀ {file : FileId} {t : Tree}, w.tree? file = some t → K t.rootNode

theorem Decl.node_of_ofNode? {n : Node} {d : Decl} (h : Decl.ofNode? n = some d) : d.node = n := by
  obtain ⟨kind, -, rfl⟩ := Option.map_eq_some_iff.mp h
  rfl

namespace Node

theorem mem_children_of_child? {n c : Node} {slot : Field} (h : n.child? slot = some c) :
    c ∈ n.children := by
  obtain ⟨s, hs, rfl⟩ := Option.map_eq_some_iff.mp h
  exact List.mem_map.mpr ⟨s, List.mem_of_find?_eq_some hs, rfl⟩

theorem mem_children_of_childrenIn {n c : Node} {slot : Field} (h : c ∈ n.childrenIn slot) :
    c ∈ n.children := by
  obtain ⟨s, hs, rfl⟩ := List.mem_map.mp h
  exact List.mem_map.mpr ⟨s, (List.mem_filter.mp hs).1, rfl⟩

theorem mem_children_of_childrenOfKind {n c : Node} {kind : NodeKind}
    (h : c ∈ n.childrenOfKind kind) : c ∈ n.children := (List.mem_filter.mp h).1

theorem kind_of_mem_childrenOfKind {n c : Node} {kind : NodeKind}
    (h : c ∈ n.childrenOfKind kind) : c.kind = kind := beq_iff_eq.mp (List.mem_filter.mp h).2

theorem kind_of_listed {n c : Node} {slot : Field} {kind : NodeKind}
    (h : c ∈ ((n.child? slot).map (·.childrenOfKind kind)).getD []) : c.kind = kind := by
  cases hlist : n.child? slot with
  | none => simp [hlist] at h
  | some list =>
      simp only [hlist, Option.map_some, Option.getD_some] at h
      exact kind_of_mem_childrenOfKind h

theorem kind_of_ancestorOfKind? {n m : Node} {kind : NodeKind}
    (h : n.ancestorOfKind? kind = some m) : m.kind = kind := by
  simpa using List.find?_some h

end Node

namespace Workspace.Closed

variable {w : Workspace} {K : Node → Prop} {n m : Node} {d : Decl}

theorem child? (h : w.Closed K) (hn : K n) {slot : Field} (hm : n.child? slot = some m) : K m :=
  h.child hn (Node.mem_children_of_child? hm)

theorem childrenIn (h : w.Closed K) (hn : K n) {slot : Field} (hm : m ∈ n.childrenIn slot) :
    K m :=
  h.child hn (Node.mem_children_of_childrenIn hm)

theorem childrenOfKind (h : w.Closed K) (hn : K n) {kind : NodeKind}
    (hm : m ∈ n.childrenOfKind kind) : K m :=
  h.child hn (Node.mem_children_of_childrenOfKind hm)

theorem ancestors (h : w.Closed K) (hn : K n) : ∀ m ∈ n.ancestors, K m := by
  fun_induction Node.ancestors n with
  | case1 n p hp ih =>
      intro m hm
      have hKp := h.parent hn hp
      rcases List.mem_cons.mp hm with rfl | hm
      · exact hKp
      · exact ih hKp m hm
  | case2 n hp => simp

theorem ancestorOfKind? (h : w.Closed K) (hn : K n) {kind : NodeKind}
    (hm : n.ancestorOfKind? kind = some m) : K m :=
  h.ancestors hn m (List.mem_of_find?_eq_some hm)

theorem preorder (h : w.Closed K) (hn : K n) : ∀ m ∈ n.preorder, K m :=
  Node.preorder_induction hn fun _ _ hp _ hc => h.child hp hc

theorem ofNode? (hn : K n) (hd : Decl.ofNode? n = some d) : K d.node :=
  (Decl.node_of_ofNode? hd).symm ▸ hn

/-! ### Parts of a declaration -/

theorem listed (h : w.Closed K) (hn : K n) {slot : Field} {kind : NodeKind}
    (hm : m ∈ ((n.child? slot).map (·.childrenOfKind kind)).getD []) : K m := by
  cases hlist : n.child? slot with
  | none => simp [hlist] at hm
  | some list =>
      simp only [hlist, Option.map_some, Option.getD_some] at hm
      exact h.childrenOfKind (h.child? hn hlist) hm

theorem typeParameters (h : w.Closed K) (hd : K d.node) : ∀ m ∈ d.typeParameters, K m :=
  fun _ hm => h.listed hd hm

theorem parameters (h : w.Closed K) (hd : K d.node) : ∀ m ∈ d.parameters, K m :=
  fun _ hm => h.listed hd hm

theorem parametersFor (h : w.Closed K) (hd : K d.node) {skipSelf : Bool} :
    ∀ m ∈ d.parametersFor skipSelf, K m :=
  fun m hm => h.parameters hd m (List.mem_filter.mp hm).1

theorem receiverType? (h : w.Closed K) (hd : K d.node) (hm : d.receiverType? = some m) : K m := by
  obtain ⟨receiver, hreceiver, hm⟩ := Option.bind_eq_some_iff.mp hm
  exact h.child? (h.child? hd hreceiver) hm

theorem structFields (h : w.Closed K) (hd : K d.node) : ∀ f ∈ d.structFields, K f.node := by
  intro f hf
  unfold Decl.structFields at hf
  split at hf
  · rename_i body _ hbody
    obtain ⟨m, hm, hf⟩ := List.mem_filterMap.mp hf
    exact ofNode? (h.childrenOfKind (h.child? hd hbody) hm) hf
  · cases hf

theorem enumMembers (h : w.Closed K) (hd : K d.node) : ∀ f ∈ d.enumMembers, K f.node := by
  intro f hf
  unfold Decl.enumMembers at hf
  split at hf
  · rename_i body _ hbody
    obtain ⟨m, hm, hf⟩ := List.mem_filterMap.mp hf
    exact ofNode? (h.childrenOfKind (h.child? hd hbody) hm) hf
  · cases hf

theorem enclosingFunction? (h : w.Closed K) (hn : K n)
    (hd : Decl.enclosingFunction? n = some d) : K d.node := by
  obtain ⟨m, hm, hd⟩ := Option.bind_eq_some_iff.mp hd
  exact ofNode? (h.ancestors hn m (List.mem_of_find?_eq_some hm)) hd

theorem owner? (h : w.Closed K) (hd : K d.node) {owner : Decl} (ho : d.owner? = some owner) :
    K owner.node := by
  have around : ∀ {kind : NodeKind},
      (d.node.ancestorOfKind? kind).bind Decl.ofNode? = some owner → K owner.node := by
    intro kind hk
    obtain ⟨m, hm, hk⟩ := Option.bind_eq_some_iff.mp hk
    exact ofNode? (h.ancestorOfKind? hd hm) hk
  unfold Decl.owner? at ho
  split at ho
  · exact around ho
  · exact around ho
  · exact h.enclosingFunction? hd ho
  · split at ho
    · exact around ho
    · obtain ⟨m, hm, ho⟩ := Option.bind_eq_some_iff.mp ho
      obtain ⟨list, hlist, hm⟩ := Option.bind_eq_some_iff.mp hm
      exact ofNode? (h.parent (h.ancestorOfKind? hd hlist) hm) ho
  · cases ho

theorem localDeclaration? (h : w.Closed K) (hd : K d.node) (hm : d.localDeclaration? = some m) :
    K m := h.ancestorOfKind? hd hm

theorem assignedValue? (h : w.Closed K) (hd : K d.node) (hm : d.assignedValue? = some m) :
    K m := by
  obtain ⟨declaration, hdeclaration, hm⟩ := Option.bind_eq_some_iff.mp hm
  exact h.child? (h.localDeclaration? hd hdeclaration) hm

theorem declaredByName? (h : w.Closed K) (hn : K n) (hd : Decl.declaredByName? n = some d) :
    K d.node := by
  unfold Decl.declaredByName? at hd
  split at hd
  · exact ofNode? hn hd
  · split at hd
    · split at hd
      · rename_i p hp
        split at hd
        · cases hd
        · exact ofNode? (h.parent hn hp) hd
      · cases hd
    · cases hd

end Workspace.Closed

/-! ### What the rules ask about -/

namespace NodeKind

/-- The rules ask about nodes of the kind wherever they find them. -/
def isAskedAbout : NodeKind → Bool
  | .typeParameter | .typeIdentifier | .instantiatedType | .objectLiteral | .callArgument => true
  | _ => false

/-- The type of a node of the kind is made of those of its children. -/
def isComposite : NodeKind → Bool
  | .tensorExpression | .typedTuple | .unionType | .tensorType | .tupleType => true
  | _ => false

/-- A node of the kind applies a name to types. -/
def isInstantiation : NodeKind → Bool
  | .instantiatedType | .genericInstantiation => true
  | _ => false

end NodeKind

/-- The rules ask about what stands in the slot, for most kinds of nodes. -/
def Field.isAskedAbout (slot : Field) : Bool := slot != .lhs && slot != .name

/-- The nodes in `A` are enough for the rules to ask about, when they are applied to nodes
of the closed family `K`. -/
structure Workspace.Asking (w : Workspace) (A K : Node → Prop) : Prop extends w.Closed K where
  known : ∀ {n : Node}, A n → K n
  kind : ∀ {n : Node} {kind : NodeKind}, K n → n.kind = kind → kind.isAskedAbout = true → A n
  slot : ∀ {n c : Node} {slot : Field}, K n → n.child? slot = some c →
    slot.isAskedAbout = true → A c
  part : ∀ {n c : Node} {kind : NodeKind}, K n → n.kind = kind → kind.isComposite = true →
    c ∈ n.children → A c
  argument : ∀ {n list c : Node} {kind : NodeKind}, K n → n.kind = kind →
    kind.isInstantiation = true → n.child? .arguments = some list → c ∈ list.children → A c
  generic : ∀ {n c : Node}, K n → n.kind = .instantiatedType → n.child? .name = some c → A c
  /-- The name of an entry is asked about if the entry is. -/
  entry : ∀ {n c : Node}, A n → n.kind = .instanceArgument → n.child? .name = some c → A c
  /-- The name of an entry is asked about for the value of the entry. -/
  expected : ∀ {n p c : Node}, K n → n.kind = .objectLiteral → n.parent? = some p →
    p.kind = .instanceArgument → p.child? .name = some c → A c

/-- A closed family holds all that is asked about in it. -/
theorem Workspace.Closed.asking {w : Workspace} {K : Node → Prop} (h : w.Closed K) :
    w.Asking K K where
  toClosed := h
  known hn := hn
  kind hn _ _ := hn
  slot hn hc _ := h.child? hn hc
  part hn _ _ hc := h.child hn hc
  argument hn _ _ hlist hc := h.child (h.child? hn hlist) hc
  generic hn _ hc := h.child? hn hc
  entry hn _ hc := h.child? hn hc
  expected hn _ hp _ hc := h.child? (h.parent hn hp) hc

namespace Workspace.Asking

variable {w : Workspace} {A K : Node → Prop} {n m : Node} {d : Decl}

theorem receiverType (h : w.Asking A K) (hd : K d.node) (hm : d.receiverType? = some m) : A m := by
  obtain ⟨receiver, hreceiver, hm⟩ := Option.bind_eq_some_iff.mp hm
  exact h.slot (h.child? hd hreceiver) hm rfl

theorem typeParameter (h : w.Asking A K) (hd : K d.node) (hm : m ∈ d.typeParameters) : A m :=
  h.kind (h.typeParameters hd m hm) (Node.kind_of_listed hm) rfl

end Workspace.Asking

end TolkAnalysis
