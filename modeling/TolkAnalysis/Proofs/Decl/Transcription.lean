import TolkAnalysis.Inference.Decl
import TolkAnalysis.Proofs.Decl.Copy
import TolkAnalysis.Proofs.Decl.Index
import TolkAnalysis.Proofs.Tree.Transcription

/-!
# Declarations in trees that are written in another way

What a node declares, what the parts of a declaration are and what a scope shows is read off the
nodes of one tree, so a transcription carries it along. `Transcription.decl` is the declaration at
the same position of the other tree. It has the same name, since a declared name is compared without
the backticks around it.
-/

namespace TolkAnalysis

namespace Decl

/-- The name of the declaration stands where a name is written. -/
def Titled (d : Decl) : Prop := ∀ name ∈ d.nameNode?, name.Named

theorem titled_of_kind {d : Decl} (h : d.kind = .catchVariable → d.node.kind = .identifier) :
    d.Titled := by
  intro name hname
  unfold nameNode? at hname
  split at hname
  · rename_i hself
    cases hname
    left
    rw [Bool.or_eq_true, isImplicitTypeParameter, Bool.and_eq_true, beq_iff_eq, beq_iff_eq,
      beq_iff_eq] at hself
    obtain hkind | ⟨-, hkind⟩ := hself
    · rw [h hkind]
      rfl
    · rw [hkind]
      rfl
  · exact .inr ⟨d.node, .inl hname⟩

theorem titled_of_ofNode? {n : Node} {d : Decl} (h : ofNode? n = some d) : d.Titled := by
  obtain ⟨kind, hkind, rfl⟩ := Option.map_eq_some_iff.mp h
  refine titled_of_kind ?_
  rintro (rfl : kind = .catchVariable)
  unfold kindOf? at hkind
  split at hkind
  all_goals first
    | assumption
    | (split at hkind <;> cases hkind)
    | cases hkind

theorem titled_of_owner? {d owner : Decl} (h : d.owner? = some owner) : owner.Titled := by
  have above {o : Option Node} (h : o.bind ofNode? = some owner) : owner.Titled := by
    obtain ⟨n, -, hn⟩ := Option.bind_eq_some_iff.mp h
    exact titled_of_ofNode? hn
  unfold owner? enclosingFunction? at h
  split at h
  · exact above h
  · exact above h
  · exact above h
  · split at h
    · exact above h
    · exact above h
  · cases h

theorem titled_of_mem_filterMap {ns : List Node} {d : Decl}
    (h : d ∈ ns.filterMap ofNode?) : d.Titled := by
  obtain ⟨n, -, hn⟩ := List.mem_filterMap.mp h
  exact titled_of_ofNode? hn

theorem titled_of_mem_structFields {d field : Decl} (h : field ∈ d.structFields) :
    field.Titled := by
  unfold structFields at h
  split at h
  · exact titled_of_mem_filterMap h
  · cases h

theorem titled_of_mem_enumMembers {d member : Decl} (h : member ∈ d.enumMembers) :
    member.Titled := by
  unfold enumMembers at h
  split at h
  · exact titled_of_mem_filterMap h
  · cases h

theorem titled_implicitTypeParameter (n : Node) : (implicitTypeParameter n).Titled :=
  titled_of_kind nofun

theorem titled_of_declaredByName? {n : Node} {d : Decl} (h : declaredByName? n = some d) :
    d.Titled := by
  unfold declaredByName? at h
  split at h
  · exact titled_of_ofNode? h
  · split at h
    · split at h
      · split at h
        · cases h
        · exact titled_of_ofNode? h
      · cases h
    · cases h

end Decl

namespace Transcription

variable (φ : Transcription) {n : Node} {d : Decl}

/-- The declaration at the same position of the other tree. -/
def decl (d : Decl) : Decl := ⟨d.kind, φ.node d.node⟩

@[simp] theorem kind_decl (d : Decl) : (φ.decl d).kind = d.kind := rfl

@[simp] theorem node_decl (d : Decl) : (φ.decl d).node = φ.node d.node := rfl

@[simp] theorem decl_implicitTypeParameter (n : Node) :
    Decl.implicitTypeParameter (φ.node n) = φ.decl (Decl.implicitTypeParameter n) := rfl

/-- What is read off a part of a node, if the node has the part. -/
theorem getD_map_child? {α β : Type} {f : Node → List α} {f' : Node → List β} {g : α → β}
    (h : ∀ m, f' (φ.node m) = (f m).map g) (o : Option Node) :
    ((o.map φ.node).map f').getD [] = ((o.map f).getD []).map g := by
  cases o with
  | none => rfl
  | some m => exact h m

/-! ### What a node declares -/

@[simp] theorem isCatchVariable_node (n : Node) :
    Decl.isCatchVariable (φ.node n) = Decl.isCatchVariable n := by
  rw [Decl.isCatchVariable, slot?_node, Decl.isCatchVariable]

/-- The name in a slot is read alike. -/
theorem sameName_child? {p c : Node} (hc : p.child? .name = some c) :
    Text.SameName c.text (φ.node c).text := φ.sameName_node (.inr ⟨p, .inl hc⟩)

@[simp] theorem firstParameterIsSelf_node (n : Node) :
    Decl.firstParameterIsSelf (φ.node n) = Decl.firstParameterIsSelf n := by
  unfold Decl.firstParameterIsSelf
  rw [child?_node]
  cases n.child? .parameters with
  | none => rfl
  | some list =>
      simp only [Option.map_some, Option.bind_some, children_node, List.head?_map]
      cases list.children.head? with
      | none => rfl
      | some first =>
          simp only [Option.map_some, Option.bind_some, child?_node]
          cases hname : first.child? .name with
          | none => rfl
          | some name => exact (φ.sameName_child? hname).self

@[simp] theorem kindOf?_node (n : Node) : Decl.kindOf? (φ.node n) = Decl.kindOf? n := by
  rw [Decl.kindOf?, kind_node, isCatchVariable_node, firstParameterIsSelf_node, Decl.kindOf?]

@[simp] theorem ofNode?_node (n : Node) :
    Decl.ofNode? (φ.node n) = (Decl.ofNode? n).map φ.decl := by
  rw [Decl.ofNode?, kindOf?_node, Decl.ofNode?, Option.map_map]
  rfl

/-- The declarations of the nodes of a list. -/
@[simp] theorem filterMap_ofNode?_node (ns : List Node) :
    (ns.map φ.node).filterMap Decl.ofNode? = (ns.filterMap Decl.ofNode?).map φ.decl := by
  rw [List.filterMap_map, List.map_filterMap]
  exact List.filterMap_congr fun n _ => φ.ofNode?_node n

@[simp] theorem declaredByName?_node (n : Node) :
    Decl.declaredByName? (φ.node n) = (Decl.declaredByName? n).map φ.decl := by
  unfold Decl.declaredByName?
  rw [kind_node, isCatchVariable_node, slot?_node, parent?_node, ofNode?_node]
  split
  · rfl
  · split
    · cases n.parent? with
      | none => rfl
      | some p =>
          simp only [Option.map_some, kind_node, child?_node, Option.isSome_map, ofNode?_node]
          split <;> rfl
    · rfl

@[simp] theorem beq_decl (a b : Decl) : (φ.decl a == φ.decl b) = (a == b) := by
  change (a.kind == b.kind && φ.node a.node == φ.node b.node) = (a.kind == b.kind && a.node == b.node)
  rw [beq_node]

@[simp] theorem isImplicitTypeParameter_decl (d : Decl) :
    (φ.decl d).isImplicitTypeParameter = d.isImplicitTypeParameter := by
  rw [Decl.isImplicitTypeParameter, kind_decl, node_decl, kind_node, Decl.isImplicitTypeParameter]

@[simp] theorem nameNode?_decl (d : Decl) : (φ.decl d).nameNode? = d.nameNode?.map φ.node := by
  rw [Decl.nameNode?, kind_decl, isImplicitTypeParameter_decl, node_decl, child?_node, Decl.nameNode?]
  split <;> rfl

theorem name_decl (h : d.Titled) : (φ.decl d).name = d.name := by
  rw [Decl.name, nameNode?_decl, Decl.name]
  cases hname : d.nameNode? with
  | none => rfl
  | some name => exact (φ.sameName_node (h name hname)).name

/-! ### Parts of a declaration -/

@[simp] theorem isSelfParameter_node (n : Node) :
    Decl.isSelfParameter (φ.node n) = Decl.isSelfParameter n := by
  unfold Decl.isSelfParameter Decl.parameterName
  rw [child?_node]
  cases hname : n.child? .name with
  | none => rfl
  | some name => exact (φ.sameName_child? hname).self

@[simp] theorem parameters_decl (d : Decl) :
    (φ.decl d).parameters = d.parameters.map φ.node := by
  rw [Decl.parameters, node_decl, child?_node]
  exact φ.getD_map_child? (fun m => φ.childrenOfKind_node m _) _

@[simp] theorem parametersFor_decl (d : Decl) (skipSelf : Bool) :
    (φ.decl d).parametersFor skipSelf = (d.parametersFor skipSelf).map φ.node := by
  rw [Decl.parametersFor, parameters_decl, List.filter_map, Decl.parametersFor]
  refine congrArg _ (List.filter_congr fun p _ => ?_)
  rw [Function.comp_apply, isSelfParameter_node]

@[simp] theorem returnType?_decl (d : Decl) :
    (φ.decl d).returnType? = d.returnType?.map φ.node := φ.child?_node _ _

@[simp] theorem typeParameters_decl (d : Decl) :
    (φ.decl d).typeParameters = d.typeParameters.map φ.node := by
  rw [Decl.typeParameters, node_decl, child?_node]
  exact φ.getD_map_child? (fun m => φ.childrenOfKind_node m _) _

@[simp] theorem typeParameterNames_decl (d : Decl) :
    (φ.decl d).typeParameterNames = d.typeParameterNames := by
  rw [Decl.typeParameterNames, kind_decl, typeParameters_decl, filterMap_ofNode?_node, List.map_map,
    Decl.typeParameterNames]
  have hnames : (d.typeParameters.filterMap Decl.ofNode?).map ((·.name) ∘ φ.decl) =
      (d.typeParameters.filterMap Decl.ofNode?).map (·.name) := by
    refine List.map_congr_left fun p hp => ?_
    obtain ⟨n, -, hn⟩ := List.mem_filterMap.mp hp
    exact φ.name_decl (Decl.titled_of_ofNode? hn)
  rw [hnames]

@[simp] theorem body?_decl (d : Decl) : (φ.decl d).body? = d.body?.map φ.node := φ.child?_node _ _

@[simp] theorem bodyKind_decl (d : Decl) : (φ.decl d).bodyKind = d.bodyKind := by
  have hkind : (d.body?.map φ.node).map Node.kind = d.body?.map Node.kind := by
    cases d.body? with
    | none => rfl
    | some body => exact congrArg some (φ.kind_node body)
  rw [Decl.bodyKind, body?_decl, hkind, Decl.bodyKind]

@[simp] theorem receiverType?_decl (d : Decl) :
    (φ.decl d).receiverType? = d.receiverType?.map φ.node := φ.receiver?_node d.node

@[simp] theorem structFields_decl (d : Decl) :
    (φ.decl d).structFields = d.structFields.map φ.decl := by
  unfold Decl.structFields
  rw [kind_decl, node_decl, child?_node]
  cases d.kind
  case struct =>
    cases d.node.child? .body with
    | none => rfl
    | some body =>
        simp only [Option.map_some, childrenOfKind_node, filterMap_ofNode?_node]
  all_goals cases d.node.child? .body <;> rfl

@[simp] theorem enumMembers_decl (d : Decl) :
    (φ.decl d).enumMembers = d.enumMembers.map φ.decl := by
  unfold Decl.enumMembers
  rw [kind_decl, node_decl, child?_node]
  cases d.kind
  case enum =>
    cases d.node.child? .body with
    | none => rfl
    | some body =>
        simp only [Option.map_some, childrenOfKind_node, filterMap_ofNode?_node]
  all_goals cases d.node.child? .body <;> rfl

@[simp] theorem writtenType?_decl (d : Decl) :
    (φ.decl d).writtenType? = d.writtenType?.map φ.node := φ.child?_node _ _

@[simp] theorem value?_decl (d : Decl) : (φ.decl d).value? = d.value?.map φ.node :=
  φ.child?_node _ _

@[simp] theorem underlyingType?_decl (d : Decl) :
    (φ.decl d).underlyingType? = d.underlyingType?.map φ.node := φ.child?_node _ _

@[simp] theorem isBuiltin_decl (d : Decl) : (φ.decl d).isBuiltin = d.isBuiltin := by
  rw [Decl.isBuiltin, underlyingType?_decl, Option.any_map, Decl.isBuiltin]
  simp only [kind_node]

@[simp] theorem defaultType?_decl (d : Decl) :
    (φ.decl d).defaultType? = d.defaultType?.map φ.node := by
  rw [Decl.defaultType?, isImplicitTypeParameter_decl, node_decl, child?_node, Decl.defaultType?]
  split <;> rfl

@[simp] theorem enclosingFunction?_node (n : Node) :
    Decl.enclosingFunction? (φ.node n) = (Decl.enclosingFunction? n).map φ.decl := by
  have htest : (fun m : Node => m.kind.isFunctionLike) ∘ φ.node = fun m => m.kind.isFunctionLike := by
    funext m
    rw [Function.comp_apply, kind_node]
  rw [Decl.enclosingFunction?, ancestors_node, List.find?_map, htest, Decl.enclosingFunction?]
  cases n.ancestors.find? (·.kind.isFunctionLike) with
  | none => rfl
  | some function => exact φ.ofNode?_node function

@[simp] theorem owner?_decl (d : Decl) : (φ.decl d).owner? = d.owner?.map φ.decl := by
  have above (o : Option Node) :
      (o.map φ.node).bind Decl.ofNode? = (o.bind Decl.ofNode?).map φ.decl := by
    cases o with
    | none => rfl
    | some m => exact φ.ofNode?_node m
  unfold Decl.owner?
  rw [kind_decl, node_decl, isImplicitTypeParameter_decl]
  simp only [ancestorOfKind?_node, above, enclosingFunction?_node]
  split
  · rfl
  · rfl
  · rfl
  · split
    · rfl
    · rw [← above]
      cases d.node.ancestorOfKind? .typeParameterList with
      | none => rfl
      | some list => exact congrArg (·.bind Decl.ofNode?) (φ.parent?_node list)
  · rfl

@[simp] theorem localDeclaration?_decl (d : Decl) :
    (φ.decl d).localDeclaration? = d.localDeclaration?.map φ.node := φ.ancestorOfKind?_node _ _

@[simp] theorem assignedValue?_decl (d : Decl) :
    (φ.decl d).assignedValue? = d.assignedValue?.map φ.node := by
  rw [Decl.assignedValue?, localDeclaration?_decl, Decl.assignedValue?]
  cases d.localDeclaration? with
  | none => rfl
  | some declaration => exact φ.child?_node _ _

theorem patternPositions_eq (n : Node) : Decl.patternPositions n =
    match n.parent? with
    | some p =>
        if p.kind == .tupleVarsDeclaration || p.kind == .tensorVarsDeclaration then
          match p.children.findIdx? (·.id == n.id) with
          | some i => i :: Decl.patternPositions p
          | none => []
        else []
    | none => [] := by
  rw [Decl.patternPositions]
  split
  · rename_i p hp
    exact hp ▸ rfl
  · rename_i hp
    exact hp ▸ rfl

@[simp] theorem patternPositions_node (n : Node) :
    Decl.patternPositions (φ.node n) = Decl.patternPositions n := by
  have hindex (p m : Node) : (p.children.map φ.node).findIdx? (·.id == m.id) =
      p.children.findIdx? (·.id == m.id) := List.findIdx?_map ..
  fun_induction Decl.patternPositions n with
  | case1 n p hp hkind i hi ih =>
      rw [patternPositions_eq, parent?_node, hp]
      simp only [Option.map_some, kind_node, children_node, id_node, hindex, hkind, hi, ih, if_true]
  | case2 n p hp hkind hi =>
      rw [patternPositions_eq, parent?_node, hp]
      simp only [Option.map_some, kind_node, children_node, id_node, hindex, hkind, hi, if_true]
  | case3 n p hp hkind =>
      rw [patternPositions_eq, parent?_node, hp]
      simp only [Option.map_some, kind_node, hkind, Bool.false_eq_true, if_false]
  | case4 n hp => rw [patternPositions_eq, parent?_node, hp, Option.map_none]

@[simp] theorem destructuringPath_decl (d : Decl) :
    (φ.decl d).destructuringPath = d.destructuringPath :=
  congrArg List.reverse (φ.patternPositions_node d.node)

@[simp] theorem isFirstCatchVariable_decl (d : Decl) :
    (φ.decl d).isFirstCatchVariable = d.isFirstCatchVariable :=
  congrArg (· == some Field.catchVar1) (φ.slot?_node d.node)

/-! ### What a body returns -/

theorem visitReturn_node (found : Array Node) (n : Node) :
    Inference.visitReturn (found.map φ.node) (φ.node n) =
      ((Inference.visitReturn found n).1, (Inference.visitReturn found n).2.map φ.node) := by
  unfold Inference.visitReturn
  rw [kind_node, child?_node]
  split
  · rfl
  · split
    · cases n.child? .body with
      | none => rfl
      | some value => simp only [Option.map_some, Array.map_push]
    · rfl

theorem walkStack_visitReturn_node (stack : List Node) (found : Array Node) :
    (Node.walkStack Inference.visitReturn (stack.map φ.node) (found.map φ.node)).2 =
      (Node.walkStack Inference.visitReturn stack found).2.map φ.node := by
  induction stack, found using Node.walkStack.induct Inference.visitReturn with
  | case1 found => rw [List.map_nil, Node.walkStack, Node.walkStack]
  | case2 found n stack found' hstep =>
      rw [List.map_cons, Node.walkStack, visitReturn_node, Node.walkStack]
      simp only [hstep]
  | case3 found n stack found' hstep ih =>
      rw [List.map_cons, Node.walkStack, visitReturn_node, Node.walkStack]
      simp only [hstep, ih]
  | case4 found n stack found' hstep ih =>
      rw [List.map_cons, Node.walkStack, visitReturn_node, Node.walkStack]
      simp only [hstep, children_node, ← List.map_append, ih]

@[simp] theorem returnedValues_node (body : Node) :
    Inference.returnedValues (φ.node body) = (Inference.returnedValues body).map φ.node := by
  have hwalk := φ.walkStack_visitReturn_node [body] #[]
  rw [List.map_cons, List.map_nil, Array.map_empty] at hwalk
  rw [Inference.returnedValues, Node.walk, hwalk, Array.toList_map]
  rfl

/-! ### What scopes show -/

theorem patternVariables_node (n : Node) :
    Lookup.patternVariables (φ.node n) = (Lookup.patternVariables n).map φ.decl := by
  have nested (n : Node)
      (hkind : n.kind = .tupleVarsDeclaration ∨ n.kind = .tensorVarsDeclaration)
      (ih : ∀ c : { c // c ∈ n.children },
        Lookup.patternVariables (φ.node c.1) = (Lookup.patternVariables c.1).map φ.decl) :
      Lookup.patternVariables (φ.node n) = (Lookup.patternVariables n).map φ.decl := by
    rw [Lookup.patternVariables_of_nested (φ.kind_node n ▸ hkind),
      Lookup.patternVariables_of_nested hkind, children_node, List.flatMap_map, List.map_flatMap]
    exact List.flatMap_congr fun c hc => ih ⟨c, hc⟩
  induction n using Lookup.patternVariables.induct with
  | case1 n hkind hredef =>
      rw [Lookup.patternVariables, Lookup.patternVariables]
      simp only [kind_node, hkind, child?_node, Option.isSome_map, hredef, if_true, List.map_nil]
  | case2 n hkind hredef =>
      rw [Lookup.patternVariables, Lookup.patternVariables]
      simp only [kind_node, hkind, child?_node, Option.isSome_map, hredef, ofNode?_node,
        Option.toList_map]
      rfl
  | case3 n hkind ih => exact nested n (.inl hkind) ih
  | case4 n hkind ih => exact nested n (.inr hkind) ih
  | case5 n hvar htuple htensor =>
      have hempty (m : Node) (hm : m.kind = n.kind) : Lookup.patternVariables m = [] := by
        rw [Lookup.patternVariables]
        split <;> rename_i hkind <;> rw [hm] at hkind <;> first | rfl | contradiction
      rw [hempty n rfl, hempty _ (φ.kind_node n), List.map_nil]

theorem declaredVariables_node (n : Node) :
    Lookup.declaredVariables (φ.node n) = (Lookup.declaredVariables n).map φ.decl := by
  rw [Lookup.declaredVariables, child?_node]
  exact φ.getD_map_child? φ.patternVariables_node _

theorem blockVariables_node (block : Node) (before : Option Node) :
    Lookup.blockVariables (φ.node block) (before.map φ.node) =
      (Lookup.blockVariables block before).map φ.decl := by
  have hbefore : (fun n => !(before.map φ.node).any (· == n)) ∘ φ.node =
      fun n => !before.any (· == n) := by
    funext n
    simp only [Function.comp_apply, Option.any_map, beq_node]
  rw [Lookup.blockVariables, children_node, List.takeWhile_map, hbefore, List.filter_map,
    kind_beq_comp_node, List.flatMap_map, Lookup.blockVariables, List.map_flatMap]
  exact List.flatMap_congr fun n _ => φ.declaredVariables_node n

theorem catchVariables_node (clause : Node) :
    Lookup.catchVariables (φ.node clause) = (Lookup.catchVariables clause).map φ.decl := by
  rw [Lookup.catchVariables, child?_node, child?_node, Option.toList_map, Option.toList_map,
    ← List.map_append, filterMap_ofNode?_node, Lookup.catchVariables]

theorem scopeVariables_node (scope : Node) (inner : Option Node) :
    Lookup.scopeVariables (φ.node scope) (inner.map φ.node) =
      (Lookup.scopeVariables scope inner).map φ.decl := by
  have hslot : (inner.map φ.node).bind (·.slot?) = inner.bind (·.slot?) := by
    cases inner with
    | none => rfl
    | some c => exact φ.slot?_node c
  unfold Lookup.scopeVariables
  rw [kind_node, hslot, child?_node, child?_node]
  split
  · exact φ.blockVariables_node scope inner
  · exact φ.catchVariables_node scope
  · split
    · rfl
    · cases scope.child? .expr with
      | none => rfl
      | some subject =>
          simp only [Option.map_some, kind_node, declaredVariables_node]
          split <;> rfl
  · split
    · exact φ.getD_map_child? (fun body => φ.blockVariables_node body none) _
    · rfl
  · rfl

@[simp] theorem typeParametersOf_node (owner : Node) :
    Lookup.typeParametersOf (φ.node owner) = (Lookup.typeParametersOf owner).map φ.decl := by
  unfold Lookup.typeParametersOf
  rw [child?_node]
  cases owner.child? .typeParameters with
  | none => rfl
  | some list => simp only [Option.map_some, childrenOfKind_node, filterMap_ofNode?_node]

/-! ### The index of a file -/

theorem listedAt?_node (category : Category) (n : Node) :
    FileIndex.listedAt? category (φ.node n) = (FileIndex.listedAt? category n).map φ.decl := by
  rw [FileIndex.listedAt?, kind_node, ofNode?_node, FileIndex.listedAt?]
  split <;> rfl

theorem elements_ofTree (t : Tree) (category : Category) :
    (FileIndex.ofTree (φ.tree t)).elements category =
      ((FileIndex.ofTree t).elements category).map φ.decl := by
  rw [FileIndex.elements_ofTree, FileIndex.elements_ofTree, node_rootNode, children_node,
    List.filterMap_map, List.map_filterMap]
  exact List.filterMap_congr fun n _ => φ.listedAt?_node category n

theorem byName_ofTree (t : Tree) (category : Category) (name : String) :
    (FileIndex.ofTree (φ.tree t)).byName category name =
      ((FileIndex.ofTree t).byName category name).map φ.decl := by
  rw [(FileIndex.aligned_ofTree _).byName_eq, (FileIndex.aligned_ofTree t).byName_eq,
    elements_ofTree, List.filter_map]
  refine congrArg _ (List.filter_congr fun d hd => ?_)
  have htitled := Decl.titled_of_ofNode? (FileIndex.exists_of_mem_elements hd).2.1
  rw [Function.comp_apply, φ.name_decl htitled]

end Transcription

end TolkAnalysis
