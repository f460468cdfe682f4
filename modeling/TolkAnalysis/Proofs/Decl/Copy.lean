import TolkAnalysis.Proofs.Resolution.Environment
import TolkAnalysis.Proofs.Tree.Copy

/-!
# Declarations in trees of one text

What a node declares, what it is called and what the scopes around it show is read off nodes of
one tree, so it is the same in a copy of the tree. `Decl.onto` is the declaration at the same
position of the copy.
-/

namespace TolkAnalysis

/-- The declaration at the same position of another tree. -/
def Decl.onto (t' : Tree) (d : Decl) : Decl := ⟨d.kind, d.node.onto t'⟩

variable {t' : Tree} {n : Node}

theorem Node.copy_child? (h : n.tree.Copy t') {slot : Field} {c : Node}
    (hc : n.child? slot = some c) : c.tree.Copy t' :=
  copy_children h c (mem_children_of_mem_slots (mem_slots_of_child? hc))

namespace Decl

theorem isCatchVariable_onto (h : n.tree.Copy t') :
    isCatchVariable (n.onto t') = isCatchVariable n := by
  rw [isCatchVariable, isCatchVariable, n.slot?_onto h]

theorem firstParameterIsSelf_onto (h : n.tree.Copy t') :
    firstParameterIsSelf (n.onto t') = firstParameterIsSelf n := by
  unfold firstParameterIsSelf
  rw [n.child?_onto h]
  cases hlist : n.child? .parameters with
  | none => rfl
  | some list =>
      have hlist := n.copy_child? h hlist
      rw [Option.map_some, Option.bind_some, Option.bind_some, list.children_onto hlist,
        List.head?_map]
      cases hfirst : list.children.head? with
      | none => rfl
      | some first =>
          have hfirst := list.copy_children hlist first (List.mem_of_mem_head? hfirst)
          rw [Option.map_some, Option.bind_some, Option.bind_some, first.child?_onto hfirst]
          cases hname : first.child? .name with
          | none => rfl
          | some name =>
              rw [Option.map_some]
              dsimp only
              rw [name.text_onto (first.copy_child? hfirst hname)]

theorem kindOf?_onto (h : n.tree.Copy t') : kindOf? (n.onto t') = kindOf? n := by
  unfold kindOf?
  rw [n.kind_onto h, isCatchVariable_onto h, firstParameterIsSelf_onto h]

theorem ofNode?_onto (h : n.tree.Copy t') :
    ofNode? (n.onto t') = (ofNode? n).map (Decl.onto t') := by
  rw [ofNode?, kindOf?_onto h, ofNode?, Option.map_map]
  rfl

/-- The declarations of the nodes of a list. -/
theorem filterMap_ofNode?_onto {ns : List Node} (hns : ∀ n ∈ ns, n.tree.Copy t') :
    (ns.map (Node.onto t')).filterMap ofNode? = (ns.filterMap ofNode?).map (Decl.onto t') := by
  rw [List.filterMap_map, List.map_filterMap]
  exact List.filterMap_congr fun n hn => ofNode?_onto (hns n hn)

theorem declaredByName?_onto (h : n.tree.Copy t') :
    declaredByName? (n.onto t') = (declaredByName? n).map (Decl.onto t') := by
  unfold declaredByName?
  rw [n.kind_onto h, isCatchVariable_onto h, n.slot?_onto h, n.parent?_onto h, ofNode?_onto h]
  split
  · rfl
  · split
    · cases hp : n.parent? with
      | none => rfl
      | some p =>
          have hp := n.copy_parent? h hp
          rw [Option.map_some]
          dsimp only
          rw [p.kind_onto hp, p.child?_onto hp, Option.isSome_map, ofNode?_onto hp]
          split <;> rfl
    · rfl

variable {d : Decl}

theorem isImplicitTypeParameter_onto (h : d.node.tree.Copy t') :
    (d.onto t').isImplicitTypeParameter = d.isImplicitTypeParameter := by
  rw [isImplicitTypeParameter, isImplicitTypeParameter]
  exact congrArg (fun kind => d.kind == .typeParameter && kind == .typeIdentifier)
    (d.node.kind_onto h)

theorem nameNode?_onto (h : d.node.tree.Copy t') :
    (d.onto t').nameNode? = d.nameNode?.map (Node.onto t') := by
  have hkind : (d.onto t').kind = d.kind := rfl
  rw [nameNode?, nameNode?, isImplicitTypeParameter_onto h, hkind]
  split
  · rfl
  · exact d.node.child?_onto h .name

theorem copy_nameNode? (h : d.node.tree.Copy t') {name : Node} (hname : d.nameNode? = some name) :
    name.tree.Copy t' := by
  unfold nameNode? at hname
  split at hname
  · cases hname
    exact h
  · exact d.node.copy_child? h hname

theorem name_onto (h : d.node.tree.Copy t') : (d.onto t').name = d.name := by
  rw [name, name, nameNode?_onto h]
  cases hname : d.nameNode? with
  | none => rfl
  | some name =>
      rw [Option.map_some, Option.map_some, Option.map_some,
        name.text_onto (copy_nameNode? h hname)]

theorem receiverType?_onto (h : d.node.tree.Copy t') :
    (d.onto t').receiverType? = d.receiverType?.map (Node.onto t') := by
  change ((d.node.onto t').child? .receiver).bind _ = _
  rw [d.node.child?_onto h, receiverType?]
  cases hreceiver : d.node.child? .receiver with
  | none => rfl
  | some receiver => exact receiver.child?_onto (d.node.copy_child? h hreceiver) .receiverType

theorem listedAt?_onto (h : n.tree.Copy t') (category : Category) :
    FileIndex.listedAt? category (n.onto t') =
      (FileIndex.listedAt? category n).map (Decl.onto t') := by
  rw [FileIndex.listedAt?, n.kind_onto h, ofNode?_onto h, FileIndex.listedAt?]
  split <;> rfl

end Decl

/-- What is declared at the top of a tree is declared at the same positions of a copy. -/
theorem Tree.declared_onto {t : Tree} (h : t.Copy t') (category : Category) :
    t'.declared category = (t.declared category).map (Decl.onto t') := by
  rw [declared, declared, ← Node.onto_rootNode h, Node.children_onto (n := t.rootNode) h,
    List.filterMap_map, List.map_filterMap]
  refine List.filterMap_congr fun n hn => ?_
  exact Decl.listedAt?_onto (Node.copy_children (n := t.rootNode) h n hn) category

/-! ### Lists of declarations -/

/-- What is read off a node is read off the node at the same position of the copy. -/
def Tree.Carries (t' : Tree) (read : Node → List Decl) : Prop :=
  ∀ n : Node, n.tree.Copy t' → read (n.onto t') = (read n).map (Decl.onto t')

namespace Tree

variable {read : Node → List Decl}

theorem carries_child? (hread : t'.Carries read) (slot : Field) :
    t'.Carries fun n => ((n.child? slot).map read).getD [] := by
  intro n h
  dsimp only
  rw [n.child?_onto h]
  cases hc : n.child? slot with
  | none => rfl
  | some c => exact hread c (n.copy_child? h hc)

theorem carries_childrenOfKind (kind : NodeKind) :
    t'.Carries fun n => (n.childrenOfKind kind).filterMap Decl.ofNode? := by
  intro n h
  dsimp only
  rw [n.childrenOfKind_onto h]
  exact Decl.filterMap_ofNode?_onto fun m hm => n.copy_children h m (List.mem_filter.mp hm).1

theorem Carries.flatMap (hread : t'.Carries read) {ns : List Node}
    (hns : ∀ n ∈ ns, n.tree.Copy t') :
    (ns.map (Node.onto t')).flatMap read = (ns.flatMap read).map (Decl.onto t') := by
  rw [List.flatMap_map, List.map_flatMap]
  exact List.flatMap_congr fun n hn => hread n (hns n hn)

end Tree

namespace Lookup

open TolkAnalysis.Tree

theorem typeParametersOf_eq (owner : Node) : typeParametersOf owner =
    ((owner.child? .typeParameters).map fun list =>
      (list.childrenOfKind .typeParameter).filterMap Decl.ofNode?).getD [] := by
  unfold typeParametersOf
  cases owner.child? .typeParameters <;> rfl

theorem carries_typeParametersOf : t'.Carries typeParametersOf := by
  intro n h
  rw [typeParametersOf_eq, typeParametersOf_eq]
  exact carries_child? (carries_childrenOfKind .typeParameter) .typeParameters n h

theorem parametersOf_eq (function : Node) : parametersOf function =
    ((function.child? .parameters).map fun list =>
      (list.childrenOfKind .parameterDeclaration).filterMap Decl.ofNode?).getD [] := by
  unfold parametersOf
  cases function.child? .parameters <;> rfl

theorem carries_parametersOf : t'.Carries parametersOf := by
  intro n h
  rw [parametersOf_eq, parametersOf_eq]
  exact carries_child? (carries_childrenOfKind .parameterDeclaration) .parameters n h

theorem receiverNames_onto (h : n.tree.Copy t') :
    receiverNames (n.onto t') = (receiverNames n).map (Node.onto t') := by
  unfold receiverNames
  rw [Decl.ofNode?_onto h]
  cases hd : Decl.ofNode? n with
  | none => rfl
  | some d =>
      have hnode : d.node.tree.Copy t' := by
        rw [Decl.node_of_ofNode? hd]
        exact h
      rw [Option.map_some, Option.bind_some, Option.bind_some, Decl.receiverType?_onto hnode]
      cases hreceiver : d.receiverType? with
      | none => rfl
      | some receiver =>
          have hreceiver : receiver.tree.Copy t' := by
            obtain ⟨r, hr, hreceiver⟩ := Option.bind_eq_some_iff.mp hreceiver
            exact r.copy_child? (d.node.copy_child? hnode hr) hreceiver
          rw [Option.map_some]
          dsimp only
          rw [receiver.preorder_onto hreceiver]
          refine Node.filter_onto fun m hm => ?_
          rw [m.kind_onto (Node.tree_of_mem_preorder hm ▸ hreceiver)]

/-! ### Variables -/

/-- A pattern in brackets declares what the patterns in it declare. -/
theorem patternVariables_of_nested {pattern : Node}
    (hkind : pattern.kind = .tupleVarsDeclaration ∨ pattern.kind = .tensorVarsDeclaration) :
    patternVariables pattern = pattern.children.flatMap patternVariables := by
  have hattach : pattern.children.attach.flatMap (fun c => patternVariables c.1) =
      pattern.children.flatMap patternVariables := by
    rw [List.flatMap_def, List.flatMap_def, List.attach_map_val (l := pattern.children)
      (f := patternVariables)]
  rw [patternVariables]
  rcases hkind with hkind | hkind <;> rw [hkind] <;> exact hattach

theorem carries_patternVariables : t'.Carries patternVariables := by
  intro n h
  have nested : ∀ n : Node, n.tree.Copy t' →
      n.kind = .tupleVarsDeclaration ∨ n.kind = .tensorVarsDeclaration →
      (∀ c : { c // c ∈ n.children }, c.1.tree.Copy t' →
        patternVariables (c.1.onto t') = (patternVariables c.1).map (Decl.onto t')) →
      patternVariables (n.onto t') = (patternVariables n).map (Decl.onto t') := by
    intro n h hkind ih
    rw [patternVariables_of_nested (n.kind_onto h ▸ hkind), patternVariables_of_nested hkind,
      n.children_onto h, List.flatMap_map, List.map_flatMap]
    exact List.flatMap_congr fun c hc => ih ⟨c, hc⟩ (n.copy_children h c hc)
  induction n using patternVariables.induct with
  | case1 n hkind hredef =>
      rw [patternVariables, patternVariables, n.kind_onto h, hkind]
      dsimp only
      rw [n.child?_onto h, Option.isSome_map, if_pos hredef, if_pos hredef]
      rfl
  | case2 n hkind hredef =>
      rw [patternVariables, patternVariables, n.kind_onto h, hkind]
      dsimp only
      rw [n.child?_onto h, Option.isSome_map, if_neg hredef, if_neg hredef, Decl.ofNode?_onto h,
        Option.toList_map]
  | case3 n hkind ih => exact nested n h (.inl hkind) ih
  | case4 n hkind ih => exact nested n h (.inr hkind) ih
  | case5 n hvar htuple htensor =>
      have hempty : ∀ m : Node, m.kind = n.kind → patternVariables m = [] := by
        intro m hm
        rw [patternVariables]
        split <;> rename_i hkind <;> rw [hm] at hkind <;> first | rfl | contradiction
      rw [hempty n rfl, hempty _ (n.kind_onto h)]
      rfl

theorem carries_declaredVariables : t'.Carries declaredVariables :=
  Tree.carries_child? carries_patternVariables .lhs

theorem carries_statementVariables : t'.Carries Workspace.statementVariables := by
  intro n h
  unfold Workspace.statementVariables
  rw [n.kind_onto h]
  split
  · exact carries_declaredVariables n h
  · rfl

theorem carries_catchVariables : t'.Carries catchVariables := by
  intro n h
  unfold catchVariables
  rw [n.child?_onto h, n.child?_onto h, Option.toList_map, Option.toList_map, ← List.map_append]
  refine Decl.filterMap_ofNode?_onto fun m hm => ?_
  rcases List.mem_append.mp hm with hm | hm
  · exact n.copy_child? h (Option.mem_toList.mp hm)
  · exact n.copy_child? h (Option.mem_toList.mp hm)

theorem carries_blockVariables_none : t'.Carries (blockVariables · none) := by
  intro n h
  dsimp only
  rw [Workspace.blockVariables_none, Workspace.blockVariables_none, n.children_onto h]
  exact carries_statementVariables.flatMap (n.copy_children h)

theorem takeWhile_congr {p q : Node → Bool} {ns : List Node} (h : ∀ n ∈ ns, p n = q n) :
    ns.takeWhile p = ns.takeWhile q := by
  induction ns with
  | nil => rfl
  | cons n ns ih =>
      rw [List.forall_mem_cons] at h
      rw [List.takeWhile_cons, List.takeWhile_cons, h.1, ih h.2]

/-- A block shows to a statement what the statements before it declare. -/
theorem blockVariables_onto (h : n.tree.Copy t') {inner : Option Node}
    (hinner : ∀ c ∈ inner, c.tree = n.tree) :
    blockVariables (n.onto t') (inner.map (Node.onto t')) =
      (blockVariables n inner).map (Decl.onto t') := by
  have hbefore : ∀ c ∈ n.children, (inner.map (Node.onto t')).any (· == c.onto t') =
      inner.any (· == c) := by
    intro c hc
    cases inner with
    | none => rfl
    | some m =>
        have htree : m.tree = c.tree :=
          (hinner m rfl).trans (Node.tree_of_mem_children hc).symm
        refine Bool.eq_iff_iff.mpr ?_
        rw [Option.map_some, Option.any_some, Option.any_some,
          Node.beq_iff_eq_of_tree ((Node.tree_onto t' m).trans (Node.tree_onto t' c).symm),
          Node.beq_iff_eq_of_tree htree]
        exact ⟨Node.onto_injective (n.copy_children h c hc) htree, congrArg _⟩
  have htake : n.children.takeWhile
      ((fun c => !(inner.map (Node.onto t')).any (· == c)) ∘ Node.onto t') =
        n.children.takeWhile fun c => !inner.any (· == c) :=
    takeWhile_congr fun c hc => congrArg not (hbefore c hc)
  rw [Workspace.blockVariables_eq, Workspace.blockVariables_eq, n.children_onto h,
    List.takeWhile_map, htake]
  exact carries_statementVariables.flatMap fun c hc =>
    n.copy_children h c ((List.takeWhile_sublist _).mem hc)

/-- What a scope shows to a node in one of its children. -/
theorem scopeVariables_onto (h : n.tree.Copy t') {inner : Option Node}
    (hinner : ∀ c ∈ inner, c.tree = n.tree) :
    scopeVariables (n.onto t') (inner.map (Node.onto t')) =
      (scopeVariables n inner).map (Decl.onto t') := by
  have hslot : (inner.map (Node.onto t')).bind (·.slot?) = inner.bind (·.slot?) := by
    cases inner with
    | none => rfl
    | some c => exact c.slot?_onto (hinner c rfl ▸ h)
  unfold scopeVariables
  rw [n.kind_onto h, hslot]
  split
  · exact blockVariables_onto h hinner
  · exact carries_catchVariables n h
  · split
    · rfl
    · rw [n.child?_onto h]
      cases hsubject : n.child? .expr with
      | none => rfl
      | some subject =>
          have hsubject := n.copy_child? h hsubject
          rw [Option.map_some]
          dsimp only
          rw [subject.kind_onto hsubject, carries_declaredVariables subject hsubject]
          split <;> rfl
  · split
    · exact Tree.carries_child? carries_blockVariables_none .body n h
    · rfl
  · rfl

end Lookup

end TolkAnalysis
