import TolkAnalysis.Proofs.Resolution.Unqualified
import TolkAnalysis.Proofs.Tree.Order
import TolkAnalysis.References.Scope

/-!
# Names stand in the scope of what they find

A search for the uses of a declaration looks only below `Decl.useScope?`. This is enough:
whatever a look-up finds, the name is the declared name itself or stands below the scope
(`Workspace.Sound.found_in_scope`). There is one case for each place where a look-up
finds declarations; each compares the way from the declaration up to its scope with the
way on which the look-up came.
-/

namespace TolkAnalysis

namespace NodeKind

theorem eq_of_holds_parameters {kind child : NodeKind}
    (h : kind.holds (some .parameters) child = true) : child = .parameterList :=
  of_holds (P := fun _ child => child = .parameterList) (by decide +kernel) h

theorem eq_of_holds_typeParameters {kind child : NodeKind}
    (h : kind.holds (some .typeParameters) child = true) : child = .typeParameterList :=
  of_holds (P := fun _ child => child = .typeParameterList) (by decide +kernel) h

theorem eq_of_holds_loopBody {child : NodeKind}
    (h : doWhileStatement.holds (some .body) child = true) : child = .blockStatement :=
  of_holds (P := fun kind child => kind = .doWhileStatement → child = .blockStatement)
    (by decide +kernel) h rfl

/-- The node stands in the pattern of a declaration of variables. -/
def standsInPattern (kind : NodeKind) : Bool :=
  kind.isPattern || kind.isBinder || kind.spellsType || kind == .redef

theorem standsInPattern_of_holds {kind child : NodeKind} {slot : Option Field}
    (hkind : (kind = .localVarsDeclaration ∧ slot = some .lhs) ∨ kind.standsInPattern = true)
    (h : kind.holds slot child = true) : child.standsInPattern = true := by
  have hall : ∀ kind ∈ all, ∀ p ∈ kind.parts,
      (kind = .localVarsDeclaration ∧ p.slot = some .lhs) ∨ kind.standsInPattern = true →
      ∀ child ∈ all, p.kinds child = true → child.standsInPattern = true := by decide +kernel
  obtain ⟨p, hp, rfl, hchild⟩ := exists_part_of_holds h
  exact hall kind kind.mem_all p hp hkind child child.mem_all hchild

theorem parts_of_isBinder {kind : NodeKind} (h : kind.isBinder = true) : kind.parts = [] := by
  unfold isBinder at h
  split at h
  · rfl
  · rfl
  · cases h

theorem eq_identifier_of_isBinder {kind : NodeKind} (h : kind.isBinder = true)
    (hname : kind.isReferenceLike = true) : kind = .identifier := by
  unfold isBinder at h
  split at h
  · rfl
  · cases hname
  · cases h

theorem single_catchBody (kind : NodeKind) : kind.single (some .catchBody) = true := by
  have hall : ∀ kind ∈ all, kind.single (some .catchBody) = true := by decide +kernel
  exact hall kind kind.mem_all

/-- A catch clause consists of its variables and its body. -/
theorem slot_of_catchClause {child : NodeKind} {slot : Option Field}
    (h : catchClause.holds slot child = true) :
    slot = some .catchVar1 ∨ slot = some .catchVar2 ∨ slot = some .catchBody := by
  have hall : ∀ p ∈ catchClause.parts,
      p.slot = some .catchVar1 ∨ p.slot = some .catchVar2 ∨ p.slot = some .catchBody := by decide
  obtain ⟨p, hp, rfl, -⟩ := exists_part_of_holds h
  exact hall p hp

end NodeKind

namespace Tree.Shaped

variable {t : Tree} {n m c p : Node}

/-- Going up from below a child without a hit leads to its parent. -/
theorem find?_ancestors (h : t.Shaped) (hp : p.tree = t) (hc : c ∈ p.children)
    {f : Node → Bool} (hf : ∀ q ∈ c.preorder, f q = false) :
    ∀ m ∈ c.preorder, m.ancestors.find? f = (p :: p.ancestors).find? f := by
  refine Node.preorder_induction ?_ fun q hq ih d hd => ?_
  · rw [h.ancestors_child hp hc]
  · have hqtree := (Node.tree_of_mem_preorder hq).trans
      ((Node.tree_of_mem_children hc).trans hp)
    rw [h.ancestors_child hqtree hd, List.find?_cons_of_neg (by rw [hf q hq]; simp)]
    exact ih

/-- Below the pattern of a declaration of variables stand no statements. -/
theorem standsInPattern (h : t.Shaped) {declaration pattern : Node}
    (hdeclaration : declaration.tree = t) (hkind : declaration.kind = .localVarsDeclaration)
    (hpattern : declaration.child? .lhs = some pattern) :
    ∀ m ∈ pattern.preorder, m.kind.standsInPattern = true := by
  have hslot := Node.mem_slots_of_child? hpattern
  have htree := (Node.tree_of_mem_children (Node.mem_children_of_child? hpattern)).trans
    hdeclaration
  have hroot : pattern.kind.standsInPattern = true :=
    NodeKind.standsInPattern_of_holds (.inl ⟨hkind, rfl⟩) (h.holds_of_mem_slots hdeclaration hslot)
  refine Node.preorder_induction hroot fun q hq hqkind d hd => ?_
  obtain ⟨slot, hdslot⟩ := Node.exists_slot_of_mem_children hd
  exact NodeKind.standsInPattern_of_holds (.inr hqkind)
    (h.holds_of_mem_slots ((Node.tree_of_mem_preorder hq).trans htree) hdslot)

/-- The closest block around a declared variable is that around its declaration. -/
theorem ancestorOfKind?_pattern (h : t.Shaped) {declaration pattern around : Node}
    (haround : around.tree = t) (hdeclaration : declaration ∈ around.children)
    (hkind : declaration.kind = .localVarsDeclaration)
    (hpattern : declaration.child? .lhs = some pattern) (hm : m ∈ pattern.preorder) :
    m.ancestorOfKind? .blockStatement =
      (around :: around.ancestors).find? (·.kind == .blockStatement) := by
  have htree := (Node.tree_of_mem_children hdeclaration).trans haround
  have hbelow := h.standsInPattern htree hkind hpattern
  unfold Node.ancestorOfKind?
  rw [h.find?_ancestors htree (Node.mem_children_of_child? hpattern) (fun q hq => ?_) m hm,
    List.find?_cons_of_neg (by rw [hkind]; simp), h.ancestors_child haround hdeclaration]
  have hq := hbelow q hq
  cases hblock : q.kind == .blockStatement with
  | false => rfl
  | true =>
      rw [beq_iff_eq.mp hblock] at hq
      cases hq

end Tree.Shaped

namespace Decl

variable {t : Tree} {n m block : Node}

theorem blockScope?_eq (hm : m.ancestorOfKind? .blockStatement = some block) :
    blockScope? m =
      some (block.parent?.elim block fun p => if p.kind == .doWhileStatement then p else block) := by
  unfold blockScope?
  rw [hm]
  cases hp : block.parent? <;> simp [hp]

/-- A name below the closest block around a variable, or below the loop that the block is
the body of, stands in the scope of the variable. -/
theorem mem_blockScope (h : t.Shaped) (hblock : block ∈ t.rootNode.preorder)
    (hm : m.ancestorOfKind? .blockStatement = some block)
    (hn : n ∈ block.preorder ∨
      ∃ p, block.parent? = some p ∧ p.kind = .doWhileStatement ∧ n ∈ p.preorder)
    {scope : Node} (hscope : blockScope? m = some scope) : n ∈ scope.preorder := by
  rw [blockScope?_eq hm] at hscope
  cases hp : block.parent? with
  | none =>
      rw [hp] at hscope
      cases hscope
      rcases hn with hn | ⟨p, hparent, -⟩
      · exact hn
      · rw [hp] at hparent
        cases hparent
  | some p =>
      rw [hp, Option.elim_some] at hscope
      obtain rfl := Option.some_inj.mp hscope
      split
      · rcases hn with hn | ⟨q, hq, -, hn⟩
        · have hmem := Node.mem_children_of_mem_slots (h.mem_slots_of_parent? hblock hp)
          exact Node.mem_preorder_iff.mpr (.inr ⟨block, hmem, hn⟩)
        · rw [hp] at hq
          cases hq
          exact hn
      · rename_i hloop
        rcases hn with hn | ⟨q, hq, hqkind, -⟩
        · exact hn
        · rw [hp] at hq
          cases hq
          exact absurd (beq_iff_eq.mpr hqkind) hloop

theorem useScope?_localVariable {d : Decl} (h : d.kind = .localVariable) :
    d.useScope? = blockScope? d.node := by rw [useScope?, h]

theorem useScope?_catchVariable {d : Decl} (h : d.kind = .catchVariable) :
    d.useScope? = d.node.parent?.bind (·.child? .catchBody) := by rw [useScope?, h]

theorem useScope?_parameter {d : Decl} (h : d.kind = .parameter) :
    d.useScope? = ((d.node.ancestors.find? (·.kind.isFunctionLike)).bind ofNode?).map (·.node) := by
  rw [useScope?, h]
  dsimp only
  rw [owner?, h]
  rfl

theorem useScope?_of_isLocal {d : Decl} (h : d.kind.isLocal = false) : d.useScope? = none := by
  unfold useScope?
  split <;> first | rfl | (rename_i hkind; rw [hkind] at h; cases h)

end Decl

namespace Workspace

variable {n : Node}

/-- A name stands below each of the scopes around it. -/
theorem mem_preorder_of_mem_scopes (h : n.tree.Shaped) (hn : n ∈ n.tree.rootNode.preorder)
    {scope : Node} (hscope : scope ∈ n :: n.ancestors) :
    scope ∈ n.tree.rootNode.preorder ∧ n ∈ scope.preorder := by
  rcases List.mem_cons.mp hscope with rfl | hscope
  · exact ⟨hn, Node.mem_preorder_self scope⟩
  · exact h.mem_preorder_of_mem_ancestors hn hscope

/-- A name in the place of a variable of a catch clause declares that variable. -/
theorem isSome_declaredByName?_of_catchSlot (h : n.tree.Shaped)
    (hname : n.kind.isReferenceLike = true) {clause c : Node} (hclause : clause.tree = n.tree)
    {slot : Field} (hslot : slot = .catchVar1 ∨ slot = .catchVar2)
    (hc : (some slot, c) ∈ clause.slots) (hn : n ∈ c.preorder) :
    (Decl.declaredByName? n).isSome = true := by
  have hctree := (Node.tree_of_mem_children (Node.mem_children_of_mem_slots hc)).trans hclause
  have hbinder := NodeKind.isBinder_of_holds hslot (h.holds_of_mem_slots hclause hc)
  have hself : n = c := by
    rcases Node.mem_preorder_iff.mp hn with rfl | ⟨e, he, -⟩
    · rfl
    · rw [h.children_eq_nil hctree (NodeKind.parts_of_isBinder hbinder)] at he
      cases he
  subst hself
  have hcatch : Decl.isCatchVariable n = true := by
    rw [Decl.isCatchVariable, h.slot?_of_mem_slots hclause hc]
    rcases hslot with rfl | rfl <;> rfl
  rw [Decl.declaredByName?_catchVariable (NodeKind.eq_identifier_of_isBinder hbinder hname) hcatch]
  rfl

/-- A name below a catch clause that declares nothing stands in the body of the clause. -/
theorem mem_catchBody (h : n.tree.Shaped) (hname : n.kind.isReferenceLike = true)
    (hdecl : Decl.declaredByName? n = none) {clause : Node} (hclause : clause.tree = n.tree)
    (hkind : clause.kind = .catchClause) (hn : n ∈ clause.preorder) {body : Node}
    (hbody : clause.child? .catchBody = some body) : n ∈ body.preorder := by
  rcases Node.mem_preorder_iff.mp hn with rfl | ⟨c, hc, hnc⟩
  · rw [hkind] at hname
    cases hname
  · obtain ⟨slot, hslot⟩ := Node.exists_slot_of_mem_children hc
    have hholds := h.holds_of_mem_slots hclause hslot
    rw [hkind] at hholds
    rcases NodeKind.slot_of_catchClause hholds with rfl | rfl | rfl
    · have hsome := isSome_declaredByName?_of_catchSlot h hname hclause (.inl rfl) hslot hnc
      rw [hdecl] at hsome
      cases hsome
    · have hsome := isSome_declaredByName?_of_catchSlot h hname hclause (.inr rfl) hslot hnc
      rw [hdecl] at hsome
      cases hsome
    · rw [h.child?_of_mem_slots hclause (NodeKind.single_catchBody _) hslot] at hbody
      cases hbody
      exact hnc

/-- A name that finds a variable of a scope around it stands in the scope of its uses. -/
theorem mem_useScope_of_shown (h : n.tree.Shaped) (hn : n ∈ n.tree.rootNode.preorder)
    (hname : n.kind.isReferenceLike = true) (hdecl : Decl.declaredByName? n = none)
    {around : Node} {inner : Option Node} (haround : around ∈ n :: n.ancestors) {d : Decl}
    (hd : d ∈ Lookup.scopeVariables around inner) {scope : Node}
    (hscope : d.useScope? = some scope) : n ∈ scope.preorder := by
  obtain ⟨haround, hbelow⟩ := mem_preorder_of_mem_scopes h hn haround
  have htree : around.tree = n.tree := Node.tree_of_mem_preorder (n := n.tree.rootNode) haround
  cases Lookup.shownBy_of_mem_scopeVariables hd with
  | block hkind hmem hlocal hpattern hin =>
      rw [Decl.useScope?_localVariable hin.kind_eq] at hscope
      refine Decl.mem_blockScope h haround ?_ (.inl hbelow) hscope
      rw [h.ancestorOfKind?_pattern htree hmem hlocal hpattern hin.below]
      exact List.find?_cons_of_pos (beq_iff_eq.mpr hkind)
  | catchClause hkind hm hof =>
      rw [Decl.useScope?_catchVariable (kind_of_catchVariable h htree hm hof),
        Decl.node_of_ofNode? hof] at hscope
      have hparent := hm.elim
        (fun hm => h.parent?_child htree (Node.mem_children_of_child? hm))
        (fun hm => h.parent?_child htree (Node.mem_children_of_child? hm))
      rw [hparent] at hscope
      exact mem_catchBody h hname hdecl htree hkind hbelow hscope
  | subject hkind hmem hlocal hpattern hin =>
      have hchild := Node.mem_children_of_child? hmem
      rw [Decl.useScope?_localVariable hin.kind_eq] at hscope
      have hup := h.ancestorOfKind?_pattern htree hchild hlocal hpattern hin.below
      rw [List.find?_cons_of_neg (by rw [hkind]; simp)] at hup
      obtain ⟨block, hblock, -⟩ := Option.bind_eq_some_iff.mp hscope
      rw [hup] at hblock
      obtain ⟨hreach, hin'⟩ := h.mem_preorder_of_mem_ancestors haround
        (List.mem_of_find?_eq_some hblock)
      exact Decl.mem_blockScope h hreach (hup.trans hblock)
        (.inl (Node.mem_preorder_trans hin' hbelow)) hscope
  | loop hkind hbody hmem hlocal hpattern hin =>
      have hchild := Node.mem_children_of_child? hbody
      have hbodytree := (Node.tree_of_mem_children hchild).trans htree
      have hbodykind := NodeKind.eq_of_holds_loopBody
        (hkind ▸ h.holds_of_mem_slots htree (Node.mem_slots_of_child? hbody))
      rw [Decl.useScope?_localVariable hin.kind_eq] at hscope
      refine Decl.mem_blockScope h (Node.mem_preorder_of_mem_children haround hchild) ?_
        (.inr ⟨around, h.parent?_child htree hchild, hkind, hbelow⟩) hscope
      rw [h.ancestorOfKind?_pattern hbodytree hmem hlocal hpattern hin.below]
      exact List.find?_cons_of_pos (beq_iff_eq.mpr hbodykind)

/-- The scope of a parameter is its function. -/
theorem useScope?_parameter_eq {t : Tree} (h : t.Shaped) {function p : Node}
    (hfunction : function.tree = t) (hkind : function.kind.isFunctionLike = true)
    (hp : p ∈ ((function.child? .parameters).map (·.childrenOfKind .parameterDeclaration)).getD [])
    {d : Decl} (hd : Decl.ofNode? p = some d) : d.useScope? = some function := by
  cases hlist : function.child? .parameters with
  | none => simp [hlist] at hp
  | some list =>
      simp only [hlist, Option.map_some, Option.getD_some] at hp
      have hchild := Node.mem_children_of_child? hlist
      have hlisttree := (Node.tree_of_mem_children hchild).trans hfunction
      have hlistkind := NodeKind.eq_of_holds_parameters
        (h.holds_of_mem_slots hfunction (Node.mem_slots_of_child? hlist))
      have hdkind : d.kind = .parameter :=
        kind_of_mem_childrenOfKind hp hd fun m hm => by rw [Decl.kindOf?, hm]
      obtain ⟨kind, hof⟩ : ∃ kind, Decl.ofNode? function = some ⟨kind, function⟩ := by
        unfold NodeKind.isFunctionLike at hkind
        split at hkind <;> first
          | cases hkind; done
          | (rename_i hfkind; rw [Decl.ofNode?, Decl.kindOf?, hfkind]; exact ⟨_, rfl⟩)
      have hfind : (function :: function.ancestors).find? (·.kind.isFunctionLike) = some function :=
        List.find?_cons_of_pos hkind
      rw [Decl.useScope?_parameter hdkind, Decl.node_of_ofNode? hd,
        h.ancestors_child hlisttree (Node.mem_children_of_childrenOfKind hp),
        h.ancestors_child hfunction hchild,
        List.find?_cons_of_neg (by rw [hlistkind]; exact Bool.false_ne_true), hfind,
        Option.bind_some, hof]
      rfl

/-- The scope of a type parameter in a list is what the list belongs to. -/
theorem mem_useScope_of_typeParameter {t : Tree} (h : t.Shaped) {owner : Node}
    (howner : owner.tree = t) {d : Decl} (hd : d ∈ Lookup.typeParametersOf owner) {scope : Node}
    (hscope : d.useScope? = some scope) : scope = owner := by
  obtain ⟨list, m, hlist, hm, hof⟩ := Lookup.exists_of_mem_typeParametersOf hd
  have hchild := Node.mem_children_of_child? hlist
  have hlisttree := (Node.tree_of_mem_children hchild).trans howner
  have hlistkind := NodeKind.eq_of_holds_typeParameters
    (h.holds_of_mem_slots howner (Node.mem_slots_of_child? hlist))
  have hdkind : d.kind = .typeParameter :=
    kind_of_mem_childrenOfKind hm hof fun m hm => by rw [Decl.kindOf?, hm]
  have hmkind : m.kind = .typeParameter := by simpa using (List.mem_filter.mp hm).2
  have hup : m.ancestorOfKind? .typeParameterList = some list := by
    rw [Node.ancestorOfKind?, h.ancestors_child hlisttree (Node.mem_children_of_childrenOfKind hm)]
    exact List.find?_cons_of_pos (beq_iff_eq.mpr hlistkind)
  rw [Decl.useScope?, hdkind] at hscope
  obtain ⟨o, ho, rfl⟩ := Option.map_eq_some_iff.mp hscope
  have himplicit : d.isImplicitTypeParameter = false := by
    rw [Decl.isImplicitTypeParameter, Decl.node_of_ofNode? hof, hmkind]
    simp
  rw [Decl.owner?, hdkind] at ho
  dsimp only at ho
  rw [himplicit, if_neg Bool.false_ne_true, Decl.node_of_ofNode? hof, hup] at ho
  obtain ⟨p, hp, ho⟩ := Option.bind_eq_some_iff.mp ho
  rw [Option.bind_some, h.parent?_child howner hchild] at hp
  cases hp
  exact Decl.node_of_ofNode? ho

/-- The scope of a type parameter in a receiver is the method. -/
theorem mem_useScope_of_receiver {t : Tree} (h : t.Shaped) {function receiver m : Node}
    (hfunction : function.tree = t) {d : Decl} (hd : Decl.ofNode? function = some d)
    (hreceiver : d.receiverType? = some receiver) (hm : m ∈ receiver.preorder)
    (hkind : m.kind = .typeIdentifier) {scope : Node}
    (hscope : (Decl.implicitTypeParameter m).useScope? = some scope) : scope = function := by
  obtain ⟨r, hr, hreceiver⟩ := Option.bind_eq_some_iff.mp hreceiver
  rw [Decl.node_of_ofNode? hd] at hr
  have hrchild := Node.mem_children_of_child? hr
  have hrtree := (Node.tree_of_mem_children hrchild).trans hfunction
  obtain ⟨hfkind, hrkind⟩ := NodeKind.holds_receiver
    (h.holds_of_mem_slots hfunction (Node.mem_slots_of_child? hr))
  have htypes := spellsType_of_mem_preorder h hrtree hrkind
  have hreceiverchild := Node.mem_children_of_child? hreceiver
  have hup : m.ancestorOfKind? .methodDeclaration = some function := by
    unfold Node.ancestorOfKind?
    rw [h.find?_ancestors hrtree hreceiverchild (fun q hq => ?_) m hm,
      List.find?_cons_of_neg (by rw [hrkind]; simp), h.ancestors_child hfunction hrchild]
    · exact List.find?_cons_of_pos (beq_iff_eq.mpr hfkind)
    · have hqkind := htypes q (Node.mem_preorder_iff.mpr (.inr ⟨receiver, hreceiverchild, hq⟩))
      cases hmethod : q.kind == .methodDeclaration with
      | false => rfl
      | true =>
          rw [beq_iff_eq.mp hmethod] at hqkind
          rcases hqkind with hqkind | hqkind <;> cases hqkind
  obtain ⟨o, ho, rfl⟩ := Option.map_eq_some_iff.mp hscope
  have himplicit : (Decl.implicitTypeParameter m).isImplicitTypeParameter = true := by
    simp [Decl.isImplicitTypeParameter, Decl.implicitTypeParameter, hkind]
  rw [Decl.owner?, Decl.implicitTypeParameter] at ho
  dsimp only at ho
  rw [← Decl.implicitTypeParameter, himplicit, if_pos rfl, hup] at ho
  exact Decl.node_of_ofNode? ho

/-- A declaration at the top of a file is visible in other files. -/
theorem not_isLocal_of_ofKind? {category : Category} {d : Decl}
    (hd : Decl.ofNode? d.node = some d) (hcategory : Category.ofKind? d.node.kind = some category) :
    d.kind.isLocal = false := by
  obtain ⟨kind, hkind, heq⟩ := Option.map_eq_some_iff.mp hd
  have hdkind : d.kind = kind := (congrArg Decl.kind heq).symm
  rw [hdkind]
  unfold Category.ofKind? at hcategory
  split at hcategory <;> first
    | cases hcategory; done
    | (rename_i hnode; rw [Decl.kindOf?, hnode] at hkind; cases hkind; (try split) <;> rfl)

/-- A member of a struct is visible in other files. -/
theorem not_isLocal_of_mem_structFields {owner d : Decl} (h : d ∈ owner.structFields) :
    d.kind.isLocal = false := by
  unfold Decl.structFields at h
  split at h
  · obtain ⟨m, hm, hd⟩ := List.mem_filterMap.mp h
    rw [kind_of_mem_childrenOfKind hm hd fun m hm => by rw [Decl.kindOf?, hm]]
    rfl
  · cases h

/-- A member of an enum is visible in other files. -/
theorem not_isLocal_of_mem_enumMembers {owner d : Decl} (h : d ∈ owner.enumMembers) :
    d.kind.isLocal = false := by
  unfold Decl.enumMembers at h
  split at h
  · obtain ⟨m, hm, hd⟩ := List.mem_filterMap.mp h
    rw [kind_of_mem_childrenOfKind hm hd fun m hm => by rw [Decl.kindOf?, hm]]
    rfl
  · cases h

/-- A name that finds a declaration is its declared name or stands in the scope of its
uses. -/
theorem Sound.found_in_scope {w : Workspace} (h : w.Sound) (hn : w.Reaches n)
    (hname : n.kind.isReferenceLike = true) (hdecl : Decl.declaredByName? n = none) {b : Bool}
    {d : Decl}
    (hd : (⟨w, n, b⟩ : Lookup).Finds w.Reaches d) :
    d.nameNode? = some n ∨ ∀ scope, d.useScope? = some scope → n ∈ scope.preorder := by
  have hshaped := hn.1.shaped_tree h
  have around : ∀ {scope : Node}, scope ∈ n :: n.ancestors →
      scope.tree = n.tree ∧ n ∈ scope.preorder := by
    intro scope hscope
    obtain ⟨hreach, hbelow⟩ := mem_preorder_of_mem_scopes hshaped hn.2 hscope
    exact ⟨Node.tree_of_mem_preorder (n := n.tree.rootNode) hreach, hbelow⟩
  have everywhere : d.kind.isLocal = false →
      ∀ scope, d.useScope? = some scope → n ∈ scope.preorder := by
    intro hlocal scope hscope
    rw [Decl.useScope?_of_isLocal hlocal] at hscope
    cases hscope
  cases hd.offered with
  | ownName hown =>
      rw [hdecl] at hown
      cases hown
  | shown hscope hshown =>
      exact .inr fun scope => mem_useScope_of_shown hshaped hn.2 hname hdecl hscope hshown
  | parameter hscope hkind hp hof =>
      refine .inr fun scope huse => ?_
      rw [useScope?_parameter_eq hshaped (around hscope).1 hkind hp hof] at huse
      cases huse
      exact (around hscope).2
  | typeParameter hscope hmem =>
      refine .inr fun scope huse => ?_
      rw [mem_useScope_of_typeParameter hshaped (around hscope).1 hmem huse]
      exact (around hscope).2
  | receiver hscope hof hreceiver hm hkind =>
      refine .inr fun scope huse => ?_
      rw [mem_useScope_of_receiver hshaped (around hscope).1 hof hreceiver hm hkind huse]
      exact (around hscope).2
  | ownReceiver hin hkind =>
      left
      have hkind : n.kind = .typeIdentifier := hkind
      simp [Decl.nameNode?, Decl.implicitTypeParameter, Decl.isImplicitTypeParameter, hkind]
  | top hindex hmem =>
      obtain ⟨-, -, -, hof, hcategory⟩ := h.mem_children_of_element hindex hmem
      exact .inr (everywhere (not_isLocal_of_ofKind? hof hcategory))
  | field _ hmem => exact .inr (everywhere (not_isLocal_of_mem_structFields hmem))
  | member _ hmem => exact .inr (everywhere (not_isLocal_of_mem_enumMembers hmem))

end Workspace

end TolkAnalysis
