import TolkAnalysis.Proofs.References.Target
import TolkAnalysis.Proofs.Resolution.Name
import TolkAnalysis.Proofs.Session.Rereading

/-!
# Where only types are meant

What a type name may refer to comes from every scope around it, from the files that its file can
see and, in a receiver, from the name itself. All of them pass values over where only types are
meant, so a type name refers to a type, whatever values have the same name. The one value that it
may stand for is a parameter `self` of a function around it
(`Session.Consulted.isType_of_resolve`).
-/

namespace TolkAnalysis

/-- The name of a type stands neither after a dot nor in an entry of an object literal, and in a
match arm it is the pattern. -/
theorem NodeKind.holds_typeIdentifier {kind : NodeKind} {slot : Option Field}
    (h : kind.holds slot .typeIdentifier = true) :
    kind ≠ .dotAccess ∧ kind ≠ .instanceArgument ∧ (kind = .matchArm → slot = some .pattern) := by
  have hall : ∀ kind ∈ all, ∀ p ∈ kind.parts, p.kinds .typeIdentifier = true →
      kind ≠ .dotAccess ∧ kind ≠ .instanceArgument ∧
        (kind = .matchArm → p.slot = some .pattern) := by
    decide +kernel
  obtain ⟨p, hp, rfl, hchild⟩ := exists_part_of_holds h
  exact hall kind kind.mem_all p hp hchild

namespace Lookup

variable {l : Lookup} {introduces : Node → Bool}

/-- The declaration is the parameter of a function around the element, which is spelled `self`. -/
def NamesSelf (l : Lookup) (scopes : List Node) (d : Decl) : Prop :=
  l.element.text = "self" ∧
    ∃ function ∈ scopes, function.kind.isFunctionLike = true ∧ d ∈ parametersOf function

theorem NamesSelf.mono {scopes scopes' : List Node} {d : Decl} (h : l.NamesSelf scopes d)
    (hsub : scopes ⊆ scopes') : l.NamesSelf scopes' d := by
  obtain ⟨htext, function, hmem, hfunction⟩ := h
  exact ⟨htext, function, hsub hmem, hfunction⟩

theorem kind_of_mem_parametersOf {function : Node} {d : Decl} (h : d ∈ parametersOf function) :
    d.kind = .parameter ∧ d.node.kind = .parameterDeclaration ∧ d.node.tree = function.tree := by
  obtain ⟨p, hp, hof⟩ := List.mem_filterMap.mp h
  obtain rfl := Decl.node_of_ofNode? hof
  cases hlist : function.child? .parameters with
  | none => simp [hlist] at hp
  | some list =>
      simp only [hlist, Option.map_some, Option.getD_some] at hp
      refine ⟨?_, by simpa using (List.mem_filter.mp hp).2, ?_⟩
      · exact Workspace.kind_of_mem_childrenOfKind hp hof fun m hm => by rw [Decl.kindOf?, hm]
      · rw [Node.tree_of_mem_children (List.mem_filter.mp hp).1,
          Node.tree_of_mem_children (Node.mem_children_of_child? hlist)]

theorem kind_of_mem_typeParametersOf {owner : Node} {d : Decl} (h : d ∈ typeParametersOf owner) :
    d.kind = .typeParameter := by
  obtain ⟨_, _, -, hm, hof⟩ := exists_of_mem_typeParametersOf h
  exact Workspace.kind_of_mem_childrenOfKind hm hof fun m hm => by rw [Decl.kindOf?, hm]

theorem kind_of_mem_receiverParameters {function : Node} {d : Decl}
    (h : d ∈ receiverParameters introduces function) : d.kind = .typeParameter := by
  obtain ⟨m, -, rfl⟩ := List.mem_map.mp h
  rfl

/-- Where only types are meant, a scope shows type parameters, and parameters to `self`. -/
theorem kind_of_mem_shownIn (htypes : l.forTypes = true) {scope : Node} {inner : Option Node}
    {d : Decl} (hd : d ∈ l.shownIn introduces scope inner) :
    d.kind = .typeParameter ∨ l.NamesSelf [scope] d := by
  unfold shownIn at hd
  rw [htypes] at hd
  split at hd
  · rename_i hlike
    rw [List.mem_append, List.mem_append] at hd
    rcases hd with (hd | hd) | hd
    · split at hd
      · rename_i hself
        exact .inr ⟨by simpa using hself, scope, List.mem_singleton_self _, hlike, hd⟩
      · cases hd
    · exact .inl (kind_of_mem_typeParametersOf hd)
    · exact .inl (kind_of_mem_receiverParameters hd)
  · split at hd
    · exact .inl (kind_of_mem_typeParametersOf hd)
    · cases hd

theorem kind_of_mem_shownOutward (htypes : l.forTypes = true) {scopes : List Node}
    {inner : Option Node} {d : Decl} (hd : d ∈ l.shownOutward introduces inner scopes) :
    d.kind = .typeParameter ∨ l.NamesSelf scopes d := by
  induction scopes generalizing inner with
  | nil => cases hd
  | cons scope scopes ih =>
      rcases List.mem_append.mp hd with hd | hd
      · exact (kind_of_mem_shownIn htypes hd).imp_right (·.mono (by simp))
      · exact (ih hd).imp_right (·.mono (List.subset_cons_self _ _))

end Lookup

namespace Workspace

variable {w : Workspace} {n : Node}

theorem isType_of_mem_declared {t : Tree} {category : Category} (hcategory : category ∈ Category.types)
    {d : Decl} (h : d ∈ t.declared category) : d.kind.isType = true := by
  obtain ⟨m, -, hlisted⟩ := List.mem_filterMap.mp h
  unfold FileIndex.listedAt? at hlisted
  split at hlisted
  · rename_i hm
    obtain ⟨kind, hkind, rfl⟩ := Option.map_eq_some_iff.mp hlisted
    unfold Category.ofKind? at hm
    split at hm <;> cases hm <;> rename_i hmkind <;> rw [Decl.kindOf?, hmkind] at hkind <;>
      cases hkind <;> first | rfl | simp [Category.types] at hcategory
  · cases hlisted

/-- Among the candidates of a type name are types, and parameters if it is `self`. -/
theorem isType_of_mem_candidates (htypes : (⟨w, n, false⟩ : Lookup).forTypes = true) {d : Decl}
    (hd : d ∈ w.candidates n) :
    d.kind.isType = true ∨ (⟨w, n, false⟩ : Lookup).NamesSelf (n :: n.ancestors) d := by
  unfold candidates at hd
  dsimp only at hd
  rw [List.mem_append, List.mem_append, categories_of_forTypes _ htypes] at hd
  rcases hd with hd | hd | hd
  · split at hd
    · cases hd
    · refine (Lookup.kind_of_mem_shownOutward htypes hd).imp_left fun hkind => ?_
      rw [hkind]
      rfl
  · obtain ⟨t, -, hd⟩ := List.mem_flatMap.mp hd
    obtain ⟨category, hcategory, hd⟩ := List.mem_flatMap.mp hd
    exact .inl (isType_of_mem_declared hcategory hd)
  · split at hd
    · obtain rfl := List.mem_singleton.mp hd
      exact .inl rfl
    · cases hd

/-- Where a name stands for a type: it is written as the name of a type and is not the pattern of a
match arm, which may also be a value. -/
structure TypePosition (n : Node) : Prop where
  kind : n.kind = .typeIdentifier
  pattern : ¬(n.slot? = some .pattern ∧ ∃ p, n.parent? = some p ∧ p.kind = .matchArm)

section

variable (h : TypePosition n) (hshaped : n.tree.Shaped) (hn : n ∈ n.tree.rootNode.preorder)
include h hshaped hn

theorem TypePosition.standalone : Standalone n := by
  have hplace : ∀ {p : Node}, n.parent? = some p → p.kind ≠ .dotAccess ∧ p.kind ≠ .instanceArgument :=
    fun hp => by
      have hholds := hshaped.holds_of_parent? hn hp
      rw [h.kind] at hholds
      obtain ⟨hdot, hentry, -⟩ := NodeKind.holds_typeIdentifier hholds
      exact ⟨hdot, hentry⟩
  exact ⟨fun ⟨_, _, hp, hkind⟩ => (hplace hp).1 hkind, fun ⟨_, _, hp, hkind⟩ => (hplace hp).2 hkind⟩

theorem TypePosition.forTypes : (⟨w, n, false⟩ : Lookup).forTypes = true := by
  have harm : n.parent?.any (·.kind == .matchArm) = false := by
    refine Bool.eq_false_iff.mpr fun harm => ?_
    obtain ⟨p, hp, hkind⟩ := (Option.any_eq_true ..).mp harm
    rw [beq_iff_eq] at hkind
    have hholds := hshaped.holds_of_parent? hn hp
    rw [h.kind] at hholds
    exact h.pattern ⟨(NodeKind.holds_typeIdentifier hholds).2.2 hkind, p, hp, hkind⟩
  unfold Lookup.forTypes
  dsimp only
  rw [h.kind, harm]
  rfl

end

/-- A type name refers to a type, or it is `self` and refers to a parameter of that name. -/
theorem TypePosition.isType_of_nameAnswer (h : TypePosition n) (hshaped : n.tree.Shaped)
    (hn : n ∈ n.tree.rootNode.preorder) {d : Decl} (hd : w.nameAnswer n = some d) :
    d.kind.isType = true ∨ (n.text = "self" ∧ d.kind = .parameter ∧ d.name = "self" ∧
      ∃ function ∈ n.ancestors, function.kind.isFunctionLike = true ∧
        d ∈ Lookup.parametersOf function) := by
  unfold nameAnswer at hd
  dsimp only at hd
  rw [declaredByName?_typeIdentifier hshaped hn h.kind] at hd
  dsimp only at hd
  split at hd
  · cases hd
  split at hd
  · cases hd
  refine (isType_of_mem_candidates (h.forTypes hshaped hn) (List.mem_of_find?_eq_some hd)).imp_right ?_
  rintro ⟨htext, function, hmem, hlike, hparameter⟩
  have htext : n.text = "self" := htext
  obtain ⟨hkind, hnode, htree⟩ := Lookup.kind_of_mem_parametersOf hparameter
  have habove : function ∈ n.ancestors := by
    refine (List.mem_cons.mp hmem).resolve_left ?_
    rintro rfl
    rw [h.kind] at hlike
    cases hlike
  have hother : (d.node == n) = false := by
    refine Bool.eq_false_iff.mpr fun heq => ?_
    rw [(Node.beq_iff_eq_of_tree (htree.trans (Node.tree_of_mem_ancestors habove))).mp heq,
      h.kind] at hnode
    cases hnode
  have hfits : (⟨w, n, false⟩ : Lookup).fits (wantedName n) d = true := List.find?_some hd
  rw [Lookup.fits, hother, Bool.false_or, beq_iff_eq, wantedName, htext] at hfits
  exact ⟨htext, hkind, hfits.trans (by decide +kernel), function, habove, hlike, hparameter⟩

end Workspace

namespace Session

variable {s : Session} {n : Node}

/-- Where only types are meant, a name refers to a struct, an enum, a type alias or a type
parameter, or it is `self` and refers to a parameter of that name, in every session that has been
asked about nodes of the current trees only. -/
theorem Consulted.isType_of_resolve (h : s.Consulted) (hshort : s.workspace.HasShortTexts)
    (hn : s.workspace.Reaches n) (hname : Workspace.TypePosition n) {d : Decl}
    (hd : (resolve n s).1 = some d) :
    d.kind.isType = true ∨ (n.text = "self" ∧ d.kind = .parameter ∧ d.name = "self" ∧
      ∃ function ∈ n.ancestors, function.kind.isFunctionLike = true ∧
        d ∈ Lookup.parametersOf function) := by
  have hshaped := hn.1.shaped_tree h.reachable.sound
  have hanswer := (h.mayRefer hn.1).afresh 2 _
    (h.reachable.sound.resolve_name hshort hn (hname.standalone hshaped hn.2))
  exact hname.isType_of_nameAnswer hshaped hn.2 (hanswer.symm.trans hd)

/-! ### A parameter with the name of its type -/

/-- A text in which a parameter has the name of a type parameter, which is its type. -/
def namesakeText : String := "fun f<T>(T:T){}"

/-- The session in which the text has been read. -/
def namesakes : Session := rereading "" namesakeText

/-- The type of the parameter. -/
def namesakeType : Node := ⟨(parse 0 1 namesakeText).tree, 5, by decide +kernel⟩

theorem consulted_namesakes : namesakes.Consulted :=
  .blank (reachable_rereading _ _) (blank_rereading _ _)

theorem hasShortTexts_namesakes : namesakes.workspace.HasShortTexts :=
  hasShortTexts_rereading _ _ (by decide +kernel) (by decide +kernel)

theorem reaches_namesakeType : namesakes.workspace.Reaches namesakeType :=
  reaches_rereading _ _ (by decide +kernel) rfl (by decide +kernel)

theorem typePosition_namesakeType : Workspace.TypePosition namesakeType :=
  ⟨by decide +kernel, fun h => absurd h.1 (by decide +kernel)⟩

theorem exists_resolve_namesakeType : ∃ d, (resolve namesakeType namesakes).1 = some d := by
  have hshaped : namesakeType.tree.Shaped := shaped_parse 0 1 namesakeText
  have hname := typePosition_namesakeType.standalone hshaped reaches_namesakeType.2
  have hfound : (((⟨namesakes.workspace, namesakeType, false⟩ : Lookup).shownOutward
      namesakes.workspace.introduces none (namesakeType :: namesakeType.ancestors) ++
      Category.types.flatMap namesakeType.tree.declared).find?
        ((⟨namesakes.workspace, namesakeType, false⟩ : Lookup).fits
          (Workspace.wantedName namesakeType))).isSome = true := by
    decide +kernel
  obtain ⟨d, hd⟩ := Option.isSome_iff_exists.mp hfound
  exact ⟨d, (consulted_namesakes.mayRefer reaches_namesakeType.1).afresh 2 _
    (consulted_namesakes.reachable.sound.resolve_typeName hasShortTexts_namesakes
      reaches_namesakeType hname (by decide +kernel) (by decide +kernel)
      (typePosition_namesakeType.forTypes hshaped reaches_namesakeType.2) (by decide +kernel) hd)⟩

/-- The type of the parameter refers to a type and not to the parameter. -/
theorem isType_of_resolve_namesakeType :
    ∃ d, (resolve namesakeType namesakes).1 = some d ∧ d.kind.isType = true := by
  obtain ⟨d, hd⟩ := exists_resolve_namesakeType
  refine ⟨d, hd, (Consulted.isType_of_resolve consulted_namesakes hasShortTexts_namesakes
    reaches_namesakeType typePosition_namesakeType hd).resolve_right fun hself => ?_⟩
  exact absurd hself.1 (by decide +kernel)

/-! ### A node of a replaced tree -/

/-- After the name of a constant in a replaced tree has been asked about, the name of a type in the
new tree that has its number refers to the constant. -/
theorem not_isType_of_resolve_of_stale :
    ¬ ∀ s : Session, s.Reachable → s.workspace.HasShortTexts → ∀ n : Node, s.workspace.Reaches n →
      Workspace.TypePosition n → ∀ d, (resolve n s).1 = some d →
      d.kind.isType = true ∨ (n.text = "self" ∧ d.kind = .parameter ∧ d.name = "self" ∧
        ∃ function ∈ n.ancestors, function.kind.isFunctionLike = true ∧
          d ∈ Lookup.parametersOf function) := by
  intro h
  let s := rereading "const a=1;" "fun T.f(){}"
  let x : Node := ⟨(parse 0 0 "const a=1;").tree, 0, by decide +kernel⟩
  let n : Node := ⟨(parse 0 4 "fun T.f(){}").tree, 0, by decide +kernel⟩
  have hs : s.Reachable := reachable_rereading _ _
  obtain ⟨d, hd⟩ := Option.isSome_iff_exists.mp
    (show (Decl.declaredByName? x).isSome = true by decide +kernel)
  have hconstant : d.kind = .constant := by
    have h : (Decl.declaredByName? x).all (·.kind == .constant) = true := by decide +kernel
    rw [hd] at h
    exact beq_iff_eq.mp h
  have hname : d.nameNode? = some x := Decl.nameNode?_of_declaredByName?
    (shaped_parse 0 0 _) (Node.mem_preorder_of_any (by decide +kernel)) hd
  have hold : (resolve x s).1 = some d := Workspace.resolve_of_first hs.idle
    (Std.HashMap.getElem?_of_isEmpty rfl)
    (Resolution.first_of_declaredByName? (by decide +kernel) hd hname)
  have hstale := resolve_of_stale hs (show n.key = x.key by decide +kernel) []
  have hanswer := h (resolve x s).2 (hs.ask (.resolve x))
    (hasShortTexts_rereading _ _ (by decide +kernel) (by decide +kernel)) n
    (reaches_rereading _ _ (by decide +kernel) rfl (by decide +kernel))
    ⟨by decide +kernel, fun h => absurd h.1 (by decide +kernel)⟩ d (hstale.trans hold)
  rw [hconstant] at hanswer
  rcases hanswer with hanswer | ⟨-, hanswer, -⟩
  · cases hanswer
  · cases hanswer

end Session

end TolkAnalysis
