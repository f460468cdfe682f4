import Mathlib.Data.List.Find
import TolkAnalysis.Proofs.Resolution.Environment

/-!
# Names that stand for themselves

A name that is neither a declared name nor a name after a dot, nor names an entry of an
object literal, is looked for in its environment: what fits first in the look-up is the first
declaration there that the name may stand for (`Workspace.ValueName.find?_eq_lookUpAs`). The only
questions on the way are about names in receivers, and those ask nothing further
(`Workspace.Sound.resolve_receiverName`).
-/

namespace TolkAnalysis

namespace Decl

/-- A declaration is what its node declares, or a type parameter written in a receiver. -/
def Proper (d : Decl) : Prop := ofNode? d.node = some d ∨ d.isImplicitTypeParameter = true

theorem Proper.of_ofNode? {n : Node} {d : Decl} (h : ofNode? n = some d) : d.Proper := by
  obtain rfl := node_of_ofNode? h
  exact .inl h

/-- A name that is itself a declaration is a variable of a catch clause or a name in a
receiver. -/
theorem Proper.kind_of_node {d : Decl} (h : d.Proper) (hname : d.node.kind.isReferenceLike = true) :
    (d.kind = .catchVariable ∧ d.node.kind = .identifier ∧ isCatchVariable d.node = true) ∨
      (d.kind = .typeParameter ∧ d.node.kind = .typeIdentifier) := by
  rcases h with h | h
  · obtain ⟨kind, hkind, heq⟩ := Option.map_eq_some_iff.mp h
    have hd : d.kind = kind := (congrArg Decl.kind heq).symm
    unfold kindOf? at hkind
    unfold NodeKind.isReferenceLike at hname
    split at hname
    · rename_i hnode
      rw [hnode] at hkind
      dsimp only at hkind
      split at hkind
      · rename_i hcatch
        cases hkind
        exact .inl ⟨hd, hnode, hcatch⟩
      · cases hkind
    · rename_i hnode
      rw [hnode] at hkind
      cases hkind
    · cases hname
  · rw [isImplicitTypeParameter, Bool.and_eq_true, beq_iff_eq, beq_iff_eq] at h
    exact .inr h

/-- A variable of a catch clause is declared by its own name. -/
theorem declaredByName?_catchVariable {n : Node} (hkind : n.kind = .identifier)
    (h : isCatchVariable n = true) : declaredByName? n = some ⟨.catchVariable, n⟩ := by
  unfold declaredByName? ofNode? kindOf?
  simp [hkind, h]

end Decl

namespace Workspace

variable {w : Workspace} {n : Node}

/-- What a look-up offers is proper. -/
theorem Sound.proper_of_offers (h : w.Sound) {K : Node → Prop} {b : Bool} {d : Decl}
    (hd : (⟨w, n, b⟩ : Lookup).Offers K d) : d.Proper := by
  have member : ∀ {ns : List Node}, d ∈ ns.filterMap Decl.ofNode? → d.Proper := by
    intro ns hmem
    obtain ⟨m, -, hm⟩ := List.mem_filterMap.mp hmem
    exact .of_ofNode? hm
  cases hd with
  | ownName hown =>
      unfold Decl.declaredByName? at hown
      split at hown
      · exact .of_ofNode? hown
      · split at hown
        · split at hown
          · split at hown
            · cases hown
            · exact .of_ofNode? hown
          · cases hown
        · cases hown
  | shown _ hmem =>
      cases Lookup.shownBy_of_mem_scopeVariables hmem with
      | block _ _ _ _ hin => exact .inl hin.ofNode?
      | catchClause _ _ hof => exact .of_ofNode? hof
      | subject _ _ _ _ hin => exact .inl hin.ofNode?
      | loop _ _ _ _ _ hin => exact .inl hin.ofNode?
  | parameter _ _ _ hof => exact .of_ofNode? hof
  | typeParameter _ hmem =>
      obtain ⟨_, _, -, -, hof⟩ := Lookup.exists_of_mem_typeParametersOf hmem
      exact .of_ofNode? hof
  | receiver _ _ _ _ hkind => exact .inr (by simp [Decl.isImplicitTypeParameter,
      Decl.implicitTypeParameter, hkind])
  | ownReceiver _ hkind => exact .inr (by simp [Decl.isImplicitTypeParameter,
      Decl.implicitTypeParameter, hkind])
  | top hindex hmem =>
      obtain ⟨-, -, -, hof, -⟩ := h.mem_children_of_element hindex hmem
      exact .inl hof
  | field _ hmem =>
      unfold Decl.structFields at hmem
      split at hmem
      · exact member hmem
      · cases hmem
  | member _ hmem =>
      unfold Decl.enumMembers at hmem
      split at hmem
      · exact member hmem
      · cases hmem

/-! ### Declarations at the top of the files -/

theorem Sound.visible_eq (h : w.Sound) (l : Lookup) (hl : l.workspace = w) (s : LookupState) :
    l.visible s = w.topLevel (l.categories s) l.element.file := by
  subst hl
  have index : ∀ files : List FileId, (files.filterMap l.workspace.index?).flatMap
        (fun index => (l.categories s).flatMap index.elements) =
      (files.filterMap l.workspace.tree?).flatMap
        fun t => (l.categories s).flatMap t.declared := by
    intro files
    induction files with
    | nil => rfl
    | cons file files ih =>
        rw [List.filterMap_cons, List.filterMap_cons]
        unfold Workspace.index? Workspace.tree? at ih ⊢
        cases hf : l.workspace.files[file]? with
        | none => exact ih
        | some source =>
            dsimp only [Option.map_some]
            rw [List.flatMap_cons, List.flatMap_cons, ih, h.index hf]
            refine congrArg (· ++ _) (congrArg (List.flatMap · _) (funext fun category => ?_))
            exact FileIndex.elements_ofTree source.tree category
  exact index _

/-- A declaration at the top of a file is listed there. -/
theorem Sound.offers_of_mem_topLevel (h : w.Sound) {K : Node → Prop} {b : Bool} {d : Decl}
    {categories : List Category} {file : FileId} (hd : d ∈ w.topLevel categories file) :
    (⟨w, n, b⟩ : Lookup).Offers K d := by
  obtain ⟨t, ht, hd⟩ := List.mem_flatMap.mp hd
  obtain ⟨category, -, hd⟩ := List.mem_flatMap.mp hd
  obtain ⟨file', -, htree⟩ := List.mem_filterMap.mp ht
  obtain ⟨source, hf, rfl⟩ := exists_source_of_tree? htree
  have hindex : w.index? file' = some source.index := Option.map_eq_some_iff.mpr ⟨source, hf, rfl⟩
  rw [Tree.declared, ← FileIndex.elements_ofTree, ← h.index hf] at hd
  exact .top hindex hd

/-- The kind of a declaration at the top of a file follows its category. -/
theorem kind_of_mem_declared {t : Tree} {category : Category} {d : Decl}
    (h : d ∈ t.declared category) :
    (d.kind == .function || d.kind == .getMethod) =
        (category == .functions || category == .getMethods) ∧
      (d.kind == .typeParameter) = false ∧ d.node.kind.isReferenceLike = false := by
  obtain ⟨n, -, hlisted⟩ := List.mem_filterMap.mp h
  unfold FileIndex.listedAt? at hlisted
  split at hlisted
  · rename_i hcategory
    obtain ⟨kind, hkind, rfl⟩ := Option.map_eq_some_iff.mp hlisted
    unfold Category.ofKind? at hcategory
    split at hcategory <;> cases hcategory <;> rename_i hn <;> rw [Decl.kindOf?, hn] at hkind <;>
      cases hkind <;> dsimp only <;> rw [hn] <;> (try split) <;> exact ⟨rfl, rfl, rfl⟩
  · cases hlisted

theorem categories_of_forTypes {l : Lookup} (s : LookupState) (h : l.forTypes = true) :
    l.categories s = Category.types := by
  rw [Lookup.categories, h]
  rfl

/-- What a name that is found by lists refers to. -/
theorem eval?_first {known : Findings} {wanted : String} {ds : List Decl}
    (hspan : n.span.isEmpty = false) (hdecl : Decl.declaredByName? n = none)
    (hqualifier : (⟨w, n, false⟩ : Lookup).qualifier? = none)
    (h : (⟨w, n, false⟩ : Lookup).Lists known wanted (Lookup.searchUnqualified ⟨w, n, false⟩) ds) :
    (Resolution.first w n).eval? known = some (ds.find? ((⟨w, n, false⟩ : Lookup).fits wanted)) := by
  have hsearch : Lookup.search ⟨w, n, false⟩ = Lookup.searchUnqualified ⟨w, n, false⟩ := by
    unfold Lookup.search
    rw [hspan, hdecl, hqualifier]
    rfl
  exact Lookup.eval?_first (hsearch ▸ h)

/-! ### Names in receivers -/

theorem exists_receiver_of_mem_receiverNames {function : Node}
    (h : n ∈ Lookup.receiverNames function) : ∃ r receiver, function.child? .receiver = some r ∧
      r.child? .receiverType = some receiver ∧ n ∈ receiver.preorder ∧
      n.kind = .typeIdentifier := by
  unfold Lookup.receiverNames at h
  split at h
  · rename_i receiver hreceiver
    obtain ⟨d, hd, hreceiver⟩ := Option.bind_eq_some_iff.mp hreceiver
    obtain ⟨r, hr, hreceiver⟩ := Option.bind_eq_some_iff.mp hreceiver
    rw [Decl.node_of_ofNode? hd] at hr
    obtain ⟨hmem, hkind⟩ := List.mem_filter.mp h
    exact ⟨r, receiver, hr, hreceiver, hmem, beq_iff_eq.mp hkind⟩
  · cases h

theorem tree_of_mem_receiverNames {function : Node} (h : n ∈ Lookup.receiverNames function) :
    n.tree = function.tree := by
  obtain ⟨r, receiver, hr, hreceiver, hmem, -⟩ := exists_receiver_of_mem_receiverNames h
  rw [Node.tree_of_mem_preorder hmem,
    Node.tree_of_mem_children (Node.mem_children_of_child? hreceiver),
    Node.tree_of_mem_children (Node.mem_children_of_child? hr)]

/-- Everything below a receiver spells a type. -/
theorem spellsType_of_mem_preorder {t : Tree} (h : t.Shaped) {r : Node} (hr : r.tree = t)
    (hkind : r.kind = .methodReceiver) :
    ∀ m ∈ r.preorder, m.kind = .methodReceiver ∨ m.kind.spellsType = true := by
  refine Node.preorder_induction (.inl hkind) fun p hp hpkind c hc => .inr ?_
  obtain ⟨slot, hslot⟩ := Node.exists_slot_of_mem_children hc
  exact NodeKind.spellsType_of_holds hpkind
    (h.holds_of_mem_slots ((Node.tree_of_mem_preorder hp).trans hr) hslot)

/-- Where a name in the receiver of a function stands. -/
structure InReceiver (n : Node) : Prop where
  kind : n.kind = .typeIdentifier
  around : (n.ancestorOfKind? .methodReceiver).isSome = true
  parent : ∃ p, n.parent? = some p ∧ (p.kind = .methodReceiver ∨ p.kind.spellsType = true)

theorem inReceiver_of_mem_receiverNames {t : Tree} (h : t.Shaped) {function : Node}
    (hfunction : function.tree = t) (hn : n ∈ Lookup.receiverNames function) : InReceiver n := by
  obtain ⟨r, receiver, hr, hreceiver, hmem, hkind⟩ := exists_receiver_of_mem_receiverNames hn
  have hrtree := (Node.tree_of_mem_children (Node.mem_children_of_child? hr)).trans hfunction
  have hrkind := (NodeKind.holds_receiver
    (h.holds_of_mem_slots hfunction (Node.mem_slots_of_child? hr))).2
  have hnr : n ∈ r.preorder := Node.mem_preorder_iff.mpr
    (.inr ⟨receiver, Node.mem_children_of_child? hreceiver, hmem⟩)
  have hne : n ≠ r := by
    rintro rfl
    rw [hkind] at hrkind
    cases hrkind
  refine ⟨hkind, ?_, ?_⟩
  · refine List.find?_isSome.mpr ⟨r, h.mem_ancestors hrtree hnr hne, ?_⟩
    exact beq_iff_eq.mpr hrkind
  · obtain ⟨p, hp, hchild⟩ := (Node.exists_parent_of_mem_preorder hnr).resolve_left hne
    have hptree := (Node.tree_of_mem_preorder hp).trans hrtree
    exact ⟨p, h.parent?_child hptree hchild, spellsType_of_mem_preorder h hrtree hrkind p hp⟩

theorem InReceiver.parentKind (h : InReceiver n) (kind : NodeKind)
    (hkind : kind ≠ .methodReceiver ∧ kind.spellsType = false) :
    (n.parent?.map (·.kind) == some kind) = false ∧
      (n.parent?.any (·.kind == kind)) = false := by
  obtain ⟨p, hp, hspells⟩ := h.parent
  have hne : p.kind ≠ kind := by
    rintro rfl
    rcases hspells with heq | hspells
    · exact hkind.1 heq
    · rw [hspells] at hkind
      cases hkind.2
  simp [hp, hne]

/-- The name of a type declares nothing. -/
theorem declaredByName?_typeIdentifier {t : Tree} (ht : t.Shaped) (hn : n ∈ t.rootNode.preorder)
    (hkind : n.kind = .typeIdentifier) : Decl.declaredByName? n = none := by
  unfold Decl.declaredByName?
  rw [hkind]
  split
  · rename_i hcatch
    simp at hcatch
  · split
    · rename_i hslot
      split
      · rename_i p hp
        have hholds := ht.holds_of_parent? hn hp
        rw [hkind, beq_iff_eq.mp hslot] at hholds
        have hpkind := NodeKind.holds_name_typeIdentifier hholds
        simp [hpkind, Decl.ofNode?, Decl.kindOf?]
      · rfl
    · rfl

theorem InReceiver.qualifier? (h : InReceiver n) (b : Bool) :
    (⟨w, n, b⟩ : Lookup).qualifier? = none := by
  obtain ⟨p, hp, hspells⟩ := h.parent
  have hdot := (h.parentKind .dotAccess ⟨by simp, rfl⟩).2
  unfold Lookup.qualifier?
  rw [hp] at hdot ⊢
  dsimp only
  split
  · rw [show (p.kind == .dotAccess) = false from hdot]
    rfl
  · rfl

theorem InReceiver.forTypes (h : InReceiver n) (b : Bool) :
    (⟨w, n, b⟩ : Lookup).forTypes = true := by
  have harm := (h.parentKind .matchArm ⟨by simp, rfl⟩).2
  unfold Lookup.forTypes
  dsimp only
  rw [h.kind, harm]
  rfl

/-- A declaration that is no name itself fits a name if it has the name that is looked for. -/
theorem fits_of_knows {b : Bool} {d : Decl} (hsound : w.Sound) (hn : w.Knows n)
    (hname : n.kind.isReferenceLike = true) (hd : w.Knows d.node)
    (hkind : d.node.kind.isReferenceLike = false) (wanted : String) :
    (⟨w, n, b⟩ : Lookup).fits wanted d = (d.name == wanted) := by
  have hnode : (d.node == n) = false := by
    refine Bool.eq_false_iff.mpr fun heq => ?_
    rw [hd.eq_of_beq hn hsound heq, hname] at hkind
    cases hkind
  unfold Lookup.fits
  rw [hnode, Bool.false_or]

/-- A declaration at the top of a file that fits a name has the name that is looked for. -/
theorem fits_of_mem_topLevel {categories : List Category} {file : FileId} {d : Decl}
    (hn : w.Knows n) (hsound : w.Sound) (hname : n.kind.isReferenceLike = true)
    (hd : d ∈ w.topLevel categories file) (wanted : String) :
    (⟨w, n, false⟩ : Lookup).fits wanted d = (d.name == wanted) := by
  have hknown : w.Knows d.node :=
    (hsound.offers_of_mem_topLevel (K := w.Knows) (b := false) hd).closed hsound.closed_knows hn
  obtain ⟨t, -, hd⟩ := List.mem_flatMap.mp hd
  obtain ⟨category, -, hd⟩ := List.mem_flatMap.mp hd
  exact fits_of_knows hsound hn hname hknown (kind_of_mem_declared hd).2.2 wanted

/-- A name in a receiver is looked for among the types at the top of the files, and
introduces a type parameter if there is none. -/
theorem InReceiver.lists_searchUnqualified (h : InReceiver n) (hsound : w.Sound)
    (hempty : n.text ≠ "") (hblank : (n.text == "_") = false) (known : Findings) :
    (⟨w, n, false⟩ : Lookup).Lists known (wantedName n) (Lookup.searchUnqualified ⟨w, n, false⟩)
      (w.topLevel Category.types n.file ++ [Decl.implicitTypeParameter n]) := by
  let l : Lookup := ⟨w, n, false⟩
  have hwanted : l.wanted l.unqualifiedState = wantedName n := Lookup.wanted_unqualifiedState
  have hinside : l.isInReceiver = true := h.around
  have htext : (l.element.text == "" || l.element.text == "_") = false := by
    rw [Bool.or_eq_false_iff]
    exact ⟨beq_eq_false_iff_ne.mpr hempty, hblank⟩
  have hentry : (l.element.slot? == some .name && l.parentKind? == some .instanceArgument) =
      false := by
    rw [Bool.and_eq_false_iff]
    exact .inr (h.parentKind .instanceArgument ⟨by simp, rfl⟩).1
  have haround : l.Lists known (wantedName n) (l.searchAround l.unqualifiedState) [] := by
    rw [Lookup.searchAround, if_pos hinside]
    exact Lookup.lists_pure
  have hintroduced : l.Lists known (wantedName n) (l.searchIntroduced l.unqualifiedState)
      [Decl.implicitTypeParameter n] := by
    rw [Lookup.searchIntroduced, if_pos (by rw [hinside, h.kind]; rfl), Lookup.offer, hwanted]
    exact Lookup.lists_offerNamed rfl _
  have hlists := Lookup.lists_searchUnqualified rfl hwanted htext hentry haround hintroduced
  rw [hsound.visible_eq l rfl, categories_of_forTypes _ (h.forTypes false)] at hlists
  exact hlists

/-- A name in a receiver refers to a type parameter if it introduces one. -/
theorem Sound.resolve_receiverName (h : w.Sound) (hshort : w.HasShortTexts) {function : Node}
    (hfunction : w.Reaches function) (hn : n ∈ Lookup.receiverNames function) :
    ∃ d, (w.afresh 1).resolve n = some d ∧ d.any (·.kind == .typeParameter) = w.introduces n := by
  have hin := inReceiver_of_mem_receiverNames (hfunction.1.shaped_tree h) rfl hn
  have hreaches : w.Reaches n := by
    obtain ⟨r, receiver, hr, hreceiver, hmem, -⟩ := exists_receiver_of_mem_receiverNames hn
    have hK := h.closed_reaches
    exact hK.preorder (hK.child? (hK.child? hfunction hr) hreceiver) n hmem
  have hsound := hreaches.1.sound_tree h hshort
  have hkind : n.kind ≠ .sourceFile := by
    rw [hin.kind]
    simp
  have answer : ∀ {ds : List Decl}, (⟨w, n, false⟩ : Lookup).Lists (w.afresh 0) (wantedName n)
      (Lookup.searchUnqualified ⟨w, n, false⟩) ds → (w.afresh 1).resolve n =
        some (ds.find? ((⟨w, n, false⟩ : Lookup).fits (wantedName n))) := fun hlists =>
    eval?_first (hsound.isEmpty_span rfl hkind)
      (declaredByName?_typeIdentifier hsound.shaped hreaches.2 hin.kind)
      (hin.qualifier? false) hlists
  cases hblank : n.text == "_" with
  | true =>
      have hnothing : (⟨w, n, false⟩ : Lookup).Lists (w.afresh 0) (wantedName n)
          (Lookup.searchUnqualified ⟨w, n, false⟩) [] := by
        rw [Lookup.searchUnqualified, if_pos (by rw [hblank, Bool.or_true])]
        exact Lookup.lists_pure
      exact ⟨_, answer hnothing, by simp [introduces, bne, hblank]⟩
  | false =>
      refine ⟨_, answer (hin.lists_searchUnqualified h (hsound.text_ne_empty rfl hkind) hblank _), ?_⟩
      have hfits : ∀ d ∈ w.topLevel Category.types n.file,
          (⟨w, n, false⟩ : Lookup).fits (wantedName n) d = (d.name == wantedName n) := fun d hd =>
        fits_of_mem_topLevel hreaches.1 h (by rw [hin.kind]; rfl) hd _
      rw [List.find?_append]
      unfold introduces
      rw [bne, hblank, Bool.not_false, Bool.true_and]
      cases hfind : (w.topLevel Category.types n.file).find?
          ((⟨w, n, false⟩ : Lookup).fits (wantedName n)) with
      | some d =>
          have hmem := List.mem_of_find?_eq_some hfind
          have hname := (hfits d hmem).symm.trans (List.find?_some hfind)
          rw [List.any_eq_true.mpr ⟨d, hmem, hname⟩]
          obtain ⟨t, -, hmem⟩ := List.mem_flatMap.mp hmem
          obtain ⟨category, -, hmem⟩ := List.mem_flatMap.mp hmem
          exact (kind_of_mem_declared hmem).2.1
      | none =>
          have hany : (w.topLevel Category.types n.file).any (·.name == wantedName n) = false := by
            refine List.any_eq_false.mpr fun d hd => ?_
            rw [← hfits d hd]
            exact List.find?_eq_none.mp hfind d hd
          have hself : (⟨w, n, false⟩ : Lookup).fits (wantedName n)
              (Decl.implicitTypeParameter n) = true :=
            Bool.or_eq_true_iff.mpr (.inl (Node.beq_self n))
          rw [hany, List.find?_cons_of_pos hself]
          rfl

/-! ### Names that stand for themselves -/

/-- A name that declares nothing, does not stand after a dot, names no entry of an object
literal and is not spelled like a type with a width. -/
structure PlainName (n : Node) : Prop where
  kind : n.kind = .identifier
  undeclared : Decl.declaredByName? n = none
  undotted : ¬(n.slot? = some .field ∧ ∃ p, n.parent? = some p ∧ p.kind = .dotAccess)
  entry : ¬(n.slot? = some .name ∧ ∃ p, n.parent? = some p ∧ p.kind = .instanceArgument)
  named : n.text ≠ "_"
  sized : sizedTypeFamily? n.text = none

/-- The node is neither the name after a dot nor the name of an entry of an object literal. -/
structure Standalone (n : Node) : Prop where
  undotted : ¬(n.slot? = some .field ∧ ∃ p, n.parent? = some p ∧ p.kind = .dotAccess)
  entry : ¬(n.slot? = some .name ∧ ∃ p, n.parent? = some p ∧ p.kind = .instanceArgument)

theorem Standalone.of_place (hslot : n.slot? ≠ some .field)
    (hentry : n.parent?.any (·.kind == .instanceArgument) = false) : Standalone n := by
  refine ⟨fun h => hslot h.1, ?_⟩
  rintro ⟨-, p, hp, hkind⟩
  rw [hp, Option.any_some, hkind] at hentry
  cases hentry

theorem PlainName.standalone (h : PlainName n) : Standalone n := ⟨h.undotted, h.entry⟩

/-- A name outside type expressions that declares nothing and stands for itself. It may be spelled
like a type with a width. -/
structure ValueName (n : Node) : Prop extends Standalone n where
  kind : n.kind = .identifier
  undeclared : Decl.declaredByName? n = none
  named : n.text ≠ "_"

theorem PlainName.valueName (h : PlainName n) : ValueName n where
  toStandalone := h.standalone
  kind := h.kind
  undeclared := h.undeclared
  named := h.named

/-- A plain name is looked for as it is written. -/
theorem PlainName.wantedName_eq (h : PlainName n) :
    wantedName n = Text.withoutBackticks n.text := by
  rw [wantedName, h.sized]
  rfl

theorem Standalone.qualifier? (h : Standalone n) (b : Bool) :
    (⟨w, n, b⟩ : Lookup).qualifier? = none := by
  unfold Lookup.qualifier?
  dsimp only
  split
  · rename_i hslot
    split
    · rename_i p hp
      refine if_neg fun hdot => h.undotted ⟨beq_iff_eq.mp hslot, p, hp, beq_iff_eq.mp hdot⟩
    · rfl
  · rfl

theorem Standalone.not_entry (h : Standalone n) (b : Bool) :
    (n.slot? == some .name && (⟨w, n, b⟩ : Lookup).parentKind? == some .instanceArgument) =
      false := by
  refine Bool.eq_false_iff.mpr fun hentry => ?_
  rw [Bool.and_eq_true, beq_iff_eq, beq_iff_eq] at hentry
  obtain ⟨p, hp, hkind⟩ := Option.map_eq_some_iff.mp hentry.2
  exact h.entry ⟨hentry.1, p, hp, hkind⟩

theorem ValueName.not_inReceiver (h : ValueName n) (hshaped : n.tree.Shaped)
    (hn : n ∈ n.tree.rootNode.preorder) (b : Bool) :
    (⟨w, n, b⟩ : Lookup).isInReceiver = false := by
  refine Bool.eq_false_iff.mpr fun hin => ?_
  obtain ⟨r, hr, hrkind⟩ := List.find?_isSome.mp hin
  have hbelow := (hshaped.mem_preorder_of_mem_ancestors hn hr).2
  have hspells := spellsType_of_mem_preorder hshaped (Node.tree_of_mem_ancestors hr)
    (beq_iff_eq.mp hrkind) n hbelow
  rw [h.kind] at hspells
  simp [NodeKind.spellsType, NodeKind.isType] at hspells

theorem isDotQualifier_unqualifiedState (l : Lookup) :
    l.unqualifiedState.isDotQualifier = (l.parentKind? == some .dotAccess) := by
  unfold Lookup.unqualifiedState LookupState.isDotQualifier LookupState.get?
  simp only [LookupState.withValue, Std.HashMap.getElem?_insert_self]
  cases l.parentKind? == some .dotAccess <;> rfl

theorem kind_of_catchVariable {t : Tree} (h : t.Shaped) {clause m : Node}
    (hclause : clause.tree = t)
    (hm : clause.child? .catchVar1 = some m ∨ clause.child? .catchVar2 = some m) {d : Decl}
    (hd : Decl.ofNode? m = some d) : d.kind = .catchVariable := by
  have hbinder : m.kind.isBinder = true := by
    rcases hm with hm | hm
    · exact NodeKind.isBinder_of_holds (.inl rfl)
        (h.holds_of_mem_slots hclause (Node.mem_slots_of_child? hm))
    · exact NodeKind.isBinder_of_holds (.inr rfl)
        (h.holds_of_mem_slots hclause (Node.mem_slots_of_child? hm))
  obtain ⟨kind, hkind, rfl⟩ := Option.map_eq_some_iff.mp hd
  unfold NodeKind.isBinder at hbinder
  unfold Decl.kindOf? at hkind
  split at hbinder
  · rename_i hidentifier
    rw [hidentifier] at hkind
    dsimp only at hkind
    split at hkind
    · cases hkind
      rfl
    · cases hkind
  · rename_i hunderscore
    rw [hunderscore] at hkind
    cases hkind
  · cases hbinder

theorem isLocal_of_mem_scopeVariables {scope : Node} (h : scope.tree.Shaped)
    {inner : Option Node} {d : Decl} (hd : d ∈ Lookup.scopeVariables scope inner) :
    d.kind.isLocal = true := by
  cases Lookup.shownBy_of_mem_scopeVariables hd with
  | block _ _ _ _ hin => rw [hin.kind_eq]; rfl
  | catchClause _ hm hof => rw [kind_of_catchVariable h rfl hm hof]; rfl
  | subject _ _ _ _ hin => rw [hin.kind_eq]; rfl
  | loop _ _ _ _ _ hin => rw [hin.kind_eq]; rfl

/-- A declaration whose node has a kind that declares only one thing. -/
theorem kind_of_mem_childrenOfKind {m : Node} {kind : NodeKind} {declares : DeclKind}
    {list : Node} (hm : m ∈ list.childrenOfKind kind) {d : Decl} (hd : Decl.ofNode? m = some d)
    (hkind : ∀ m : Node, m.kind = kind → Decl.kindOf? m = some declares) : d.kind = declares := by
  have hmkind : m.kind = kind := by simpa using (List.mem_filter.mp hm).2
  rw [Decl.ofNode?, hkind m hmkind] at hd
  exact (congrArg Decl.kind (Option.some_inj.mp hd)).symm

/-- What a scope around a name shows was offered, and it is local. -/
theorem offers_of_mem_scopeDecls {K : Node → Prop} {b : Bool} {introduces : Node → Bool}
    {scope : Node} (hscope : scope ∈ n :: n.ancestors) (hshaped : scope.tree.Shaped)
    (inner : Option Node) {d : Decl} (hd : d ∈ Lookup.scopeDecls introduces scope inner) :
    (⟨w, n, b⟩ : Lookup).Offers K d ∧ d.kind.isLocal = true := by
  have typeParameter : d ∈ Lookup.typeParametersOf scope →
      (⟨w, n, b⟩ : Lookup).Offers K d ∧ d.kind.isLocal = true := by
    intro hd
    obtain ⟨list, m, -, hm, hof⟩ := Lookup.exists_of_mem_typeParametersOf hd
    refine ⟨.typeParameter hscope hd, ?_⟩
    rw [kind_of_mem_childrenOfKind hm hof fun m hm => by rw [Decl.kindOf?, hm]]
    rfl
  unfold Lookup.scopeDecls at hd
  split at hd
  · rename_i hlike
    rw [List.mem_append, List.mem_append] at hd
    rcases hd with (hd | hd) | hd
    · obtain ⟨p, hp, hof⟩ := List.mem_filterMap.mp hd
      refine ⟨.parameter hscope hlike hp hof, ?_⟩
      cases hlist : scope.child? .parameters with
      | none => simp [hlist] at hp
      | some list =>
          simp only [hlist, Option.map_some, Option.getD_some] at hp
          rw [kind_of_mem_childrenOfKind hp hof fun m hm => by rw [Decl.kindOf?, hm]]
          rfl
    · exact typeParameter hd
    · obtain ⟨m, hm, rfl⟩ := List.mem_map.mp hd
      have hm := (List.mem_filter.mp hm).1
      unfold Lookup.receiverNames at hm
      split at hm
      · rename_i receiver hreceiver
        obtain ⟨function, hfunction, hreceiver⟩ := Option.bind_eq_some_iff.mp hreceiver
        obtain ⟨hmem, hkind⟩ := List.mem_filter.mp hm
        exact ⟨.receiver hscope hfunction hreceiver hmem (beq_iff_eq.mp hkind), rfl⟩
      · cases hm
  · split at hd
    · exact typeParameter hd
    · exact ⟨.shown hscope hd, isLocal_of_mem_scopeVariables hshaped hd⟩

/-- What the scopes around a name show was offered, and it is local. -/
theorem offers_of_mem_outward {K : Node → Prop} {b : Bool} {introduces : Node → Bool}
    (hshaped : n.tree.Shaped) {scopes : List Node}
    (hscopes : ∀ scope ∈ scopes, scope ∈ n :: n.ancestors) {inner : Option Node} {d : Decl}
    (hd : d ∈ Lookup.outward introduces inner scopes) :
    (⟨w, n, b⟩ : Lookup).Offers K d ∧ d.kind.isLocal = true := by
  induction scopes generalizing inner with
  | nil => cases hd
  | cons scope scopes ih =>
      rw [List.forall_mem_cons] at hscopes
      rcases List.mem_append.mp hd with hd | hd
      · have htree : scope.tree = n.tree := by
          rcases List.mem_cons.mp hscopes.1 with rfl | hmem
          · rfl
          · exact Node.tree_of_mem_ancestors hmem
        exact offers_of_mem_scopeDecls hscopes.1 (htree ▸ hshaped) inner hd
      · exact ih hscopes.2 hd

/-- What fits the look-up of a name that stands for itself is what has the name looked for. -/
theorem ValueName.fits_eq (h : ValueName n) (hsound : w.Sound) (hn : w.Knows n) {d : Decl}
    (hd : (⟨w, n, false⟩ : Lookup).Offers w.Knows d) (wanted : String) :
    (⟨w, n, false⟩ : Lookup).fits wanted d = (d.name == wanted) := by
  have hnode : (d.node == n) = false := by
    refine Bool.eq_false_iff.mpr fun heq => ?_
    have hdn := (hd.closed hsound.closed_knows hn).eq_of_beq hn hsound heq
    have hname : d.node.kind.isReferenceLike = true := by
      rw [hdn, h.kind]
      rfl
    rcases (hsound.proper_of_offers hd).kind_of_node hname with ⟨-, -, hcatch⟩ | ⟨-, hkind⟩
    · have hundeclared := h.undeclared
      rw [Decl.declaredByName?_catchVariable h.kind (hdn ▸ hcatch)] at hundeclared
      cases hundeclared
    · rw [hdn, h.kind] at hkind
      cases hkind
  unfold Lookup.fits
  rw [hnode, Bool.false_or]

/-- The declaration is a function that is not a method. -/
def isNamedFunction (d : Decl) : Bool := d.kind == .function || d.kind == .getMethod

/-- Without the functions, the declarations at the top of the files are those of the other
categories. -/
theorem filter_topLevel (w : Workspace) (file : FileId) :
    (w.topLevel (Category.values ++ Category.types) file).filter (!isNamedFunction ·) =
      w.topLevel ([.globalVariables, .constants] ++ Category.types) file := by
  have dropped : ∀ (t : Tree) (category : Category),
      (category == .functions || category == .getMethods) = true →
      (t.declared category).filter (!isNamedFunction ·) = [] := by
    intro t category hcategory
    refine List.filter_eq_nil_iff.mpr fun d hd => ?_
    rw [isNamedFunction, (kind_of_mem_declared hd).1, hcategory]
    exact Bool.false_ne_true
  have kept : ∀ (t : Tree) (category : Category),
      (category == .functions || category == .getMethods) = false →
      (t.declared category).filter (!isNamedFunction ·) = t.declared category := by
    intro t category hcategory
    refine List.filter_eq_self.mpr fun d hd => ?_
    rw [isNamedFunction, (kind_of_mem_declared hd).1, hcategory]
    rfl
  unfold topLevel
  rw [List.filter_flatMap]
  refine congrArg (List.flatMap · _) (funext fun t => ?_)
  rw [List.filter_flatMap]
  simp only [Category.values, Category.types, List.cons_append, List.nil_append,
    List.flatMap_cons, List.flatMap_nil, dropped t .functions rfl, dropped t .getMethods rfl,
    kept t .globalVariables rfl, kept t .constants rfl, kept t .structs rfl, kept t .enums rfl,
    kept t .typeAliases rfl]

/-- The declarations at the top of the files that a name is looked for among. -/
theorem ValueName.categories (h : ValueName n) :
    (⟨w, n, false⟩ : Lookup).categories (Lookup.unqualifiedState ⟨w, n, false⟩) =
      if n.parent?.any (·.kind == .dotAccess) then
        [.globalVariables, .constants] ++ Category.types
      else Category.values ++ Category.types := by
  have hvalues : (⟨w, n, false⟩ : Lookup).forTypes = false := by
    unfold Lookup.forTypes
    dsimp only
    rw [h.kind]
    rfl
  unfold Lookup.categories
  rw [hvalues, isDotQualifier_unqualifiedState]
  unfold Lookup.parentKind?
  dsimp only
  cases n.parent? with
  | none => rfl
  | some p =>
      by_cases hdot : p.kind = .dotAccess
      · simp [hdot, Category.types]
      · simp [hdot, Category.types, Category.values]

/-- What fits first in a look-up is the first declaration in the environment that the name may
stand for. -/
theorem ValueName.find?_eq_lookUpAs (h : ValueName n) (hsound : w.Sound)
    (hn : w.Reaches n) (htree : w.tree? n.file = some n.tree) (wanted : String) :
    (Lookup.outward w.introduces (some n) n.ancestors ++
        w.topLevel ((⟨w, n, false⟩ : Lookup).categories
          (Lookup.unqualifiedState ⟨w, n, false⟩)) n.file).find?
        ((⟨w, n, false⟩ : Lookup).fits wanted) = w.lookUpAs wanted n := by
  have hnshaped := hn.1.shaped_tree hsound
  have around : (Lookup.outward w.introduces (some n) n.ancestors).find?
      ((⟨w, n, false⟩ : Lookup).fits wanted) =
        (Lookup.outward w.introduces (some n) n.ancestors).find? (mayNameAs wanted n) := by
    refine List.find?_congr fun d hd => ?_
    obtain ⟨hoffers, hlocal⟩ := offers_of_mem_outward (w := w) (K := w.Knows) (b := false) hnshaped
      (fun _ hscope => List.mem_cons_of_mem n hscope) hd
    have hfunction : (d.kind == .function || d.kind == .getMethod) = false := by
      cases hkind : d.kind <;> first | rfl | (rw [hkind] at hlocal; cases hlocal)
    rw [h.fits_eq hsound hn.1 hoffers wanted, mayNameAs, hfunction, Bool.and_false]
    simp
  have top : ∀ categories, (w.topLevel categories n.file).find?
      ((⟨w, n, false⟩ : Lookup).fits wanted) =
        (w.topLevel categories n.file).find? (·.name == wanted) :=
    fun categories => List.find?_congr fun d hd =>
      h.fits_eq hsound hn.1 (hsound.offers_of_mem_topLevel hd) wanted
  unfold lookUpAs
  rw [environment_eq w hnshaped htree hn.2, List.find?_append, List.find?_append, around, top,
    h.categories]
  refine congrArg _ ?_
  cases hdot : n.parent?.any (·.kind == .dotAccess) with
  | true =>
      rw [if_pos rfl, ← filter_topLevel, List.find?_filter]
      refine List.find?_congr fun d _ => ?_
      rw [mayNameAs, hdot, isNamedFunction, Bool.true_and, Bool.decide_and, Bool.decide_eq_true,
        Bool.decide_eq_true, Bool.and_comm]
  | false =>
      rw [if_neg Bool.false_ne_true]
      refine List.find?_congr fun d _ => ?_
      rw [mayNameAs, hdot]
      simp

/-- What the scopes around a name show comes before what the files declare. -/
theorem lookUp_of_outward (hshaped : n.tree.Shaped) (hn : w.Reaches n) {d : Decl}
    (h : (Lookup.outward w.introduces (some n) n.ancestors).find? (mayName n) = some d) :
    w.lookUp n = some d := by
  unfold lookUp
  rw [environment_eq w hshaped (knows_iff.mp hn.1) hn.2, List.find?_append, h, Option.some_or]

end Workspace

end TolkAnalysis
