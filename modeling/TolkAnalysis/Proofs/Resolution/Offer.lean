import TolkAnalysis.Proofs.Query.Within
import TolkAnalysis.Proofs.Session.Closed
import TolkAnalysis.Proofs.Tree.Node

/-!
# What a look-up offers

`Lookup.Offers K l d` lists the places where a look-up may find a declaration:
the scopes around the name, the receiver of a method, the top of a file, and the
members of structs and enums that types lead to. Whatever a search collects was
offered in one of these places and fits the name, if the answers that the search
gets stay in the closed family `K` (`Resolution.within_found`). The collected
declarations are then in `K` too, so a node refers to declarations in every
closed family that it belongs to.
-/

namespace TolkAnalysis

variable {w : Workspace} {K : Node → Prop}

namespace Lookup

/-- The places where a look-up finds declarations. -/
inductive Offers (K : Node → Prop) (l : Lookup) : Decl → Prop
  | ownName {d : Decl} (h : Decl.declaredByName? l.element = some d) : Offers K l d
  | shown {scope : Node} {inner : Option Node} {d : Decl}
      (hscope : scope ∈ l.element :: l.element.ancestors) (h : d ∈ scopeVariables scope inner) :
      Offers K l d
  | parameter {function p : Node} {d : Decl}
      (hscope : function ∈ l.element :: l.element.ancestors)
      (hkind : function.kind.isFunctionLike = true)
      (hp : p ∈ ((function.child? .parameters).map
        (·.childrenOfKind .parameterDeclaration)).getD []) (h : Decl.ofNode? p = some d) :
      Offers K l d
  | typeParameter {owner : Node} {d : Decl} (hscope : owner ∈ l.element :: l.element.ancestors)
      (h : d ∈ typeParametersOf owner) : Offers K l d
  /-- A type parameter that the receiver of a method around the name introduces. -/
  | receiver {function n receiver : Node} {d : Decl}
      (hscope : function ∈ l.element :: l.element.ancestors) (hd : Decl.ofNode? function = some d)
      (hreceiver : d.receiverType? = some receiver) (hn : n ∈ receiver.preorder)
      (hkind : n.kind = .typeIdentifier) : Offers K l (Decl.implicitTypeParameter n)
  | ownReceiver (hreceiver : (l.element.ancestorOfKind? .methodReceiver).isSome = true)
      (hkind : l.element.kind = .typeIdentifier) :
      Offers K l (Decl.implicitTypeParameter l.element)
  | top {file : FileId} {index : FileIndex} {category : Category} {d : Decl}
      (hindex : l.workspace.index? file = some index) (h : d ∈ index.elements category) :
      Offers K l d
  | field {owner d : Decl} (howner : K owner.node) (h : d ∈ owner.structFields) : Offers K l d
  | member {owner d : Decl} (howner : K owner.node) (h : d ∈ owner.enumMembers) : Offers K l d

/-- The names that a look-up looks for: the written one, and that of its family. -/
def Wants (l : Lookup) (wanted : String) : Prop :=
  wanted = l.name ∨ sizedTypeFamily? l.element.text = some wanted

/-- A declaration was offered, and it fits. -/
structure Finds (K : Node → Prop) (l : Lookup) (d : Decl) : Prop where
  offered : l.Offers K d
  fits : ∃ wanted, l.Wants wanted ∧ l.fits wanted d = true

/-! ### Declared variables -/

/-- A variable that a pattern declares stands in the pattern and is not marked
`redef`. -/
structure DeclaredIn (n : Node) (d : Decl) : Prop where
  below : d.node ∈ n.preorder
  kind : d.node.kind = .varDeclaration
  ofNode? : Decl.ofNode? d.node = some d
  redef : d.node.child? .redef = none

theorem DeclaredIn.of_mem_children {n c : Node} {d : Decl} (h : DeclaredIn c d)
    (hc : c ∈ n.children) : DeclaredIn n d :=
  ⟨Node.mem_preorder_iff.mpr (.inr ⟨c, hc, h.below⟩), h.kind, h.ofNode?, h.redef⟩

theorem DeclaredIn.kind_eq {n : Node} {d : Decl} (h : DeclaredIn n d) :
    d.kind = .localVariable := by
  have hd := h.ofNode?
  rw [Decl.ofNode?, Decl.kindOf?, h.kind] at hd
  exact (congrArg Decl.kind (Option.some_inj.mp hd)).symm

theorem declaredIn_of_mem_patternVariables {pattern : Node} :
    ∀ d ∈ patternVariables pattern, DeclaredIn pattern d := by
  fun_induction patternVariables pattern with
  | case1 pattern hkind hredef => simp
  | case2 pattern hkind hredef =>
      intro d hd
      have hd := Option.mem_toList.mp hd
      obtain rfl := Decl.node_of_ofNode? hd
      exact ⟨Node.mem_preorder_self _, hkind, hd, Option.not_isSome_iff_eq_none.mp hredef⟩
  | case3 pattern hkind ih =>
      intro d hd
      obtain ⟨c, -, hd⟩ := List.mem_flatMap.mp hd
      exact (ih c d hd).of_mem_children c.2
  | case4 pattern hkind ih =>
      intro d hd
      obtain ⟨c, -, hd⟩ := List.mem_flatMap.mp hd
      exact (ih c d hd).of_mem_children c.2
  | case5 pattern h1 h2 h3 => simp

/-- A declaration of local variables declares what its pattern does. -/
theorem exists_pattern_of_mem_declaredVariables {declaration : Node} {d : Decl}
    (h : d ∈ declaredVariables declaration) :
    ∃ pattern, declaration.child? .lhs = some pattern ∧ DeclaredIn pattern d := by
  unfold declaredVariables at h
  cases hp : declaration.child? .lhs with
  | none => simp [hp] at h
  | some pattern =>
      simp only [hp, Option.map_some, Option.getD_some] at h
      exact ⟨pattern, rfl, declaredIn_of_mem_patternVariables d h⟩

theorem exists_declaration_of_mem_blockVariables {block : Node} {before : Option Node} {d : Decl}
    (h : d ∈ blockVariables block before) :
    ∃ declaration ∈ block.children, declaration.kind = .localVarsDeclaration ∧
      d ∈ declaredVariables declaration := by
  obtain ⟨declaration, hmem, hd⟩ := List.mem_flatMap.mp h
  obtain ⟨hmem, hkind⟩ := List.mem_filter.mp hmem
  exact ⟨declaration, (List.takeWhile_sublist _).mem hmem, beq_iff_eq.mp hkind, hd⟩

/-- Where a scope has the variables that it shows. -/
inductive ShownBy (scope : Node) (d : Decl) : Prop
  | block {declaration pattern : Node} (hkind : scope.kind = .blockStatement)
      (hdeclaration : declaration ∈ scope.children)
      (hlocal : declaration.kind = .localVarsDeclaration)
      (hpattern : declaration.child? .lhs = some pattern) (h : DeclaredIn pattern d)
  | catchClause {n : Node} (hkind : scope.kind = .catchClause)
      (hn : scope.child? .catchVar1 = some n ∨ scope.child? .catchVar2 = some n)
      (h : Decl.ofNode? n = some d)
  | subject {declaration pattern : Node} (hkind : scope.kind = .matchExpression)
      (hdeclaration : scope.child? .expr = some declaration)
      (hlocal : declaration.kind = .localVarsDeclaration)
      (hpattern : declaration.child? .lhs = some pattern) (h : DeclaredIn pattern d)
  | loop {body declaration pattern : Node} (hkind : scope.kind = .doWhileStatement)
      (hbody : scope.child? .body = some body) (hdeclaration : declaration ∈ body.children)
      (hlocal : declaration.kind = .localVarsDeclaration)
      (hpattern : declaration.child? .lhs = some pattern) (h : DeclaredIn pattern d)

theorem shownBy_of_mem_scopeVariables {scope : Node} {inner : Option Node} {d : Decl}
    (h : d ∈ scopeVariables scope inner) : ShownBy scope d := by
  unfold scopeVariables at h
  split at h
  · rename_i hkind
    obtain ⟨declaration, hmem, hlocal, hd⟩ := exists_declaration_of_mem_blockVariables h
    obtain ⟨pattern, hpattern, hd⟩ := exists_pattern_of_mem_declaredVariables hd
    exact .block hkind hmem hlocal hpattern hd
  · rename_i hkind
    obtain ⟨n, hn, hd⟩ := List.mem_filterMap.mp h
    refine .catchClause hkind ?_ hd
    exact (List.mem_append.mp hn).imp Option.mem_toList.mp Option.mem_toList.mp
  · rename_i hkind
    split at h
    · cases h
    · split at h
      · rename_i subject hsubject
        split at h
        · rename_i hlocal
          obtain ⟨pattern, hpattern, hd⟩ := exists_pattern_of_mem_declaredVariables h
          exact .subject hkind hsubject (beq_iff_eq.mp hlocal) hpattern hd
        · cases h
      · cases h
  · rename_i hkind
    split at h
    · cases hbody : scope.child? .body with
      | none => simp [hbody] at h
      | some body =>
          simp only [hbody, Option.map_some, Option.getD_some] at h
          obtain ⟨declaration, hmem, hlocal, hd⟩ := exists_declaration_of_mem_blockVariables h
          obtain ⟨pattern, hpattern, hd⟩ := exists_pattern_of_mem_declaredVariables hd
          exact .loop hkind hbody hmem hlocal hpattern hd
    · cases h
  · cases h

theorem ShownBy.closed {scope : Node} {d : Decl} (h : ShownBy scope d) (hK : w.Closed K)
    (hscope : K scope) : K d.node := by
  have pattern : ∀ {declaration pattern : Node}, K declaration →
      declaration.child? .lhs = some pattern → DeclaredIn pattern d → K d.node :=
    fun hdeclaration hpattern hd =>
      hK.preorder (hK.child? hdeclaration hpattern) d.node hd.below
  cases h with
  | block _ hdeclaration _ hpattern hd => exact pattern (hK.child hscope hdeclaration) hpattern hd
  | catchClause _ hn hd =>
      have hKn := hn.elim (hK.child? hscope) (hK.child? hscope)
      exact Workspace.Closed.ofNode? hKn hd
  | subject _ hdeclaration _ hpattern hd => exact pattern (hK.child? hscope hdeclaration) hpattern hd
  | loop _ hbody hdeclaration _ hpattern hd =>
      exact pattern (hK.child (hK.child? hscope hbody) hdeclaration) hpattern hd

theorem exists_of_mem_typeParametersOf {owner : Node} {d : Decl}
    (h : d ∈ typeParametersOf owner) : ∃ list n, owner.child? .typeParameters = some list ∧
      n ∈ list.childrenOfKind .typeParameter ∧ Decl.ofNode? n = some d := by
  unfold typeParametersOf at h
  split at h
  · rename_i list hlist
    obtain ⟨n, hn, hd⟩ := List.mem_filterMap.mp h
    exact ⟨list, n, hlist, hn, hd⟩
  · cases h

theorem closed_scope (hK : w.Closed K) {n scope : Node} (hn : K n)
    (h : scope ∈ n :: n.ancestors) : K scope := by
  rcases List.mem_cons.mp h with rfl | h
  · exact hn
  · exact hK.ancestors hn scope h

/-- What a look-up in a closed family offers is in the family. -/
theorem Offers.closed {l : Lookup} {d : Decl} (h : l.Offers K d) (hK : l.workspace.Closed K)
    (hn : K l.element) : K d.node := by
  cases h with
  | ownName h => exact hK.declaredByName? hn h
  | shown hscope h =>
      exact (shownBy_of_mem_scopeVariables h).closed hK (closed_scope hK hn hscope)
  | parameter hscope _ hp h =>
      exact Workspace.Closed.ofNode? (hK.listed (closed_scope hK hn hscope) hp) h
  | typeParameter hscope h =>
      obtain ⟨list, n, hlist, hmem, hd⟩ := exists_of_mem_typeParametersOf h
      have hlist := hK.child? (closed_scope hK hn hscope) hlist
      exact Workspace.Closed.ofNode? (hK.childrenOfKind hlist hmem) hd
  | receiver hscope hd hreceiver hmem _ =>
      have hd := Workspace.Closed.ofNode? (closed_scope hK hn hscope) hd
      exact hK.preorder (hK.receiverType? hd hreceiver) _ hmem
  | ownReceiver _ _ => exact hn
  | top hindex h => exact hK.element hindex h
  | field howner h => exact hK.structFields howner _ h
  | member howner h => exact hK.enumMembers howner _ h

end Lookup

end TolkAnalysis
