import TolkAnalysis.Proofs.Session.Mirror

/-!
# Names in workspaces with the same texts

What a name may refer to goes by the scopes around it and by the import directives. The scopes stand
in its own tree, and the tree is copied; the files that it can see are renumbered, in the same
order. So the candidates of the name are those of the name at the same place of the other workspace
(`Mirrors.candidates_onto`), and the first that fits is the same (`Mirrors.nameAnswer_onto`).
-/

namespace TolkAnalysis

namespace Workspace

/-- A name stands alone in every tree of its text. -/
theorem Standalone.onto {n : Node} {t' : Tree} (h : Standalone n) (hcopy : n.tree.Copy t') :
    Standalone (n.onto t') := by
  have hparent : ∀ kind, (∃ p, (n.onto t').parent? = some p ∧ p.kind = kind) →
      ∃ p, n.parent? = some p ∧ p.kind = kind := by
    rintro kind ⟨p', hp', hkind⟩
    rw [n.parent?_onto hcopy] at hp'
    obtain ⟨p, hp, rfl⟩ := Option.map_eq_some_iff.mp hp'
    exact ⟨p, hp, (p.kind_onto (n.copy_parent? hcopy hp)).symm.trans hkind⟩
  refine ⟨fun hdot => h.undotted ⟨?_, hparent _ hdot.2⟩,
    fun hentry => h.entry ⟨?_, hparent _ hentry.2⟩⟩
  · rw [← hdot.1, n.slot?_onto hcopy]
  · rw [← hentry.1, n.slot?_onto hcopy]

namespace Mirrors

variable {w w' : Workspace} {σ : FileId → FileId} {n m : Node} {source' : SourceFile} {d : Decl}

theorem copy_of_knows (h : w.Mirrors w' σ) (hn : w.Knows n)
    (hf' : w'.files[σ n.file]? = some source') : n.tree.Copy source'.tree := by
  obtain ⟨-, source'', hf'', hcopy⟩ := h.exists_copy hn
  rw [hf'] at hf''
  cases hf''
  exact hcopy

theorem name_counterpart (h : w.Mirrors w' σ) (hd : w.Knows d.node) :
    (w'.counterpart σ d).name = d.name := by
  obtain ⟨-, dsource', hdf', hcopy⟩ := h.exists_copy hd
  rw [counterpart_eq hdf', Decl.name_onto hcopy]

/-- A declaration fits a name in both workspaces or in neither. -/
theorem fits_counterpart (h : w.Mirrors w' σ) (hn : w.Knows n)
    (hf' : w'.files[σ n.file]? = some source') (hd : w.Knows d.node) (wanted : String) :
    (⟨w', n.onto source'.tree, false⟩ : Lookup).fits wanted (w'.counterpart σ d) =
      (⟨w, n, false⟩ : Lookup).fits wanted d := by
  rw [Lookup.fits, h.counterpart_beq hd hn hf', h.name_counterpart hd, Lookup.fits]

/-- The first declaration of a list that fits is the same. -/
theorem find?_fits_counterpart (h : w.Mirrors w' σ) (hn : w.Knows n)
    (hf' : w'.files[σ n.file]? = some source') {ds : List Decl} (hds : ∀ d ∈ ds, w.Knows d.node)
    (wanted : String) :
    (ds.map (w'.counterpart σ)).find? ((⟨w', n.onto source'.tree, false⟩ : Lookup).fits wanted) =
      (ds.find? ((⟨w, n, false⟩ : Lookup).fits wanted)).map (w'.counterpart σ) := by
  rw [List.find?_map]
  exact congrArg _ (List.find?_congr fun d hd => h.fits_counterpart hn hf' (hds d hd) wanted)

/-- The declarations at the top of the files that a name is looked for among are the same. -/
theorem topLevel_onto (h : w.Mirrors w' σ) (hn : w.Knows n)
    (hf' : w'.files[σ n.file]? = some source') (categories : List Category) :
    w'.topLevel categories (n.onto source'.tree).file =
        (w.topLevel categories n.file).map (w'.counterpart σ) ∧
      ∀ d ∈ w.topLevel categories n.file, w.Knows d.node := by
  have hfile : (n.onto source'.tree).file = σ n.file := by
    rw [Node.file, n.tree_onto, h.sound'.file_eq hf']
  rw [hfile]
  exact h.topLevel categories (h.exists_copy hn).1

/-- A name in a receiver introduces a type parameter in both workspaces or in neither. -/
theorem introduces_onto (h : w.Mirrors w' σ) (hn : w.Knows n)
    (hf' : w'.files[σ n.file]? = some source') :
    w'.introduces (n.onto source'.tree) = w.introduces n := by
  obtain ⟨htop, hknown⟩ := h.topLevel_onto hn hf' Category.types
  have hany : (w'.topLevel Category.types (n.onto source'.tree).file).any
      (·.name == wantedName n) =
        (w.topLevel Category.types n.file).any (·.name == wantedName n) := by
    rw [htop, List.any_map]
    refine Bool.eq_iff_iff.mpr ?_
    rw [List.any_eq_true, List.any_eq_true]
    refine exists_congr fun d => and_congr_right fun hd => ?_
    rw [Function.comp_apply, h.name_counterpart (hknown d hd)]
  have htext := n.text_onto (h.copy_of_knows hn hf')
  have hwanted : wantedName (n.onto source'.tree) = wantedName n := by
    rw [wantedName, htext, wantedName]
  rw [introduces, hwanted, hany, htext, introduces]

/-! ### Scopes -/

theorem forTypes_onto (h : n.tree.Copy source'.tree) :
    (⟨w', n.onto source'.tree, false⟩ : Lookup).forTypes =
      (⟨w, n, false⟩ : Lookup).forTypes := by
  unfold Lookup.forTypes
  dsimp only
  rw [n.kind_onto h, Node.any_parent?_onto h fun p hp => by rw [p.kind_onto hp]]

theorem receiverParameters_onto (h : w.Mirrors w' σ) (hn : w.Knows n)
    (hf' : w'.files[σ n.file]? = some source') :
    Lookup.receiverParameters w'.introduces (n.onto source'.tree) =
      (Lookup.receiverParameters w.introduces n).map (Decl.onto source'.tree) := by
  have hcopy := h.copy_of_knows hn hf'
  have hintroduces : ∀ m ∈ Lookup.receiverNames n,
      w'.introduces (m.onto source'.tree) = w.introduces m := by
    intro m hm
    have htree : m.tree = n.tree := tree_of_mem_receiverNames hm
    refine h.introduces_onto (hn.of_tree_eq htree) ?_
    rwa [Node.file, htree]
  rw [Lookup.receiverParameters, Lookup.receiverNames_onto hcopy, Node.filter_onto hintroduces,
    Lookup.receiverParameters, List.map_map, List.map_map]
  rfl

/-- A scope shows the same declarations to a name. -/
theorem shownIn_onto (h : w.Mirrors w' σ) (hn : w.Knows n)
    (hf' : w'.files[σ n.file]? = some source') {scope : Node} (hscope : scope.tree = n.tree)
    {inner : Option Node} (hinner : ∀ c ∈ inner, c.tree = n.tree) :
    (⟨w', n.onto source'.tree, false⟩ : Lookup).shownIn w'.introduces (scope.onto source'.tree)
        (inner.map (Node.onto source'.tree)) =
      ((⟨w, n, false⟩ : Lookup).shownIn w.introduces scope inner).map (Decl.onto source'.tree) := by
  have hcopy := h.copy_of_knows hn hf'
  have hsame : scope.tree.Copy source'.tree := hscope ▸ hcopy
  have hreceiver := h.receiverParameters_onto (hn.of_tree_eq hscope)
    (by rwa [Node.file, hscope])
  unfold Lookup.shownIn
  rw [forTypes_onto (w := w) hcopy, scope.kind_onto hsame, n.text_onto hcopy, hreceiver,
    Lookup.carries_typeParametersOf scope hsame, Lookup.carries_parametersOf scope hsame,
    Lookup.scopeVariables_onto hsame fun c hc => (hinner c hc).trans hscope.symm]
  split
  · split <;> simp
  · split
    · rfl
    · split <;> rfl

theorem shownOutward_onto (h : w.Mirrors w' σ) (hn : w.Knows n)
    (hf' : w'.files[σ n.file]? = some source') {scopes : List Node}
    (hscopes : ∀ scope ∈ scopes, scope.tree = n.tree) {inner : Option Node}
    (hinner : ∀ c ∈ inner, c.tree = n.tree) :
    (⟨w', n.onto source'.tree, false⟩ : Lookup).shownOutward w'.introduces
        (inner.map (Node.onto source'.tree)) (scopes.map (Node.onto source'.tree)) =
      ((⟨w, n, false⟩ : Lookup).shownOutward w.introduces inner scopes).map
        (Decl.onto source'.tree) := by
  induction scopes generalizing inner with
  | nil => rfl
  | cons scope scopes ih =>
      rw [List.forall_mem_cons] at hscopes
      rw [List.map_cons, Lookup.shownOutward, Lookup.shownOutward, List.map_append,
        h.shownIn_onto hn hf' hscopes.1 hinner]
      refine congrArg _ (@ih hscopes.2 (some scope) ?_)
      rintro c ⟨⟩
      exact hscopes.1

/-! ### Candidates -/

theorem isInReceiver_onto (h : n.tree.Copy source'.tree) :
    (⟨w', n.onto source'.tree, false⟩ : Lookup).isInReceiver =
      (⟨w, n, false⟩ : Lookup).isInReceiver := by
  unfold Lookup.isInReceiver
  dsimp only
  rw [n.ancestorOfKind?_onto h, Option.isSome_map]

theorem categories_onto (h : n.tree.Copy source'.tree) :
    (⟨w', n.onto source'.tree, false⟩ : Lookup).categories
        (Lookup.unqualifiedState ⟨w', n.onto source'.tree, false⟩) =
      (⟨w, n, false⟩ : Lookup).categories (Lookup.unqualifiedState ⟨w, n, false⟩) := by
  have hparent : (⟨w', n.onto source'.tree, false⟩ : Lookup).parentKind? =
      (⟨w, n, false⟩ : Lookup).parentKind? := by
    unfold Lookup.parentKind?
    dsimp only
    rw [n.parent?_onto h, Option.map_map]
    cases hp : n.parent? with
    | none => rfl
    | some p => exact congrArg some (p.kind_onto (n.copy_parent? h hp))
  unfold Lookup.categories
  rw [forTypes_onto (w := w) h, isDotQualifier_unqualifiedState, isDotQualifier_unqualifiedState,
    hparent]

/-- Without files, what a look-up offers stands in the tree of the name. -/
theorem tree_of_offers {b : Bool} (hd : (⟨empty {}, n, b⟩ : Lookup).Offers (·.tree = n.tree) d) :
    d.node.tree = n.tree := by
  have hclosed : (empty {}).Closed (·.tree = n.tree) :=
    { child := fun hm hc => (Node.tree_of_mem_children hc).trans hm
      parent := fun hm hp => (Node.id_lt_of_parent? hp).2.trans hm
      element := fun hindex => by simp [index?, empty] at hindex
      named := fun hindex => by simp [index?, empty] at hindex
      root := fun htree => by simp [tree?, empty] at htree }
  exact hd.closed hclosed rfl

/-- What the scopes around a name show stands in its tree. -/
theorem tree_of_mem_shownOutward (hshaped : n.tree.Shaped) {introduces : Node → Bool}
    {inner : Option Node}
    (hd : d ∈ (⟨w, n, false⟩ : Lookup).shownOutward introduces inner (n :: n.ancestors)) :
    d.node.tree = n.tree :=
  tree_of_offers (b := false) (offers_of_mem_outward hshaped (fun _ hscope => hscope)
    (Lookup.mem_outward_of_mem_shownOutward hd)).1

/-- What stands in the tree of a name has its counterpart in the copy of the tree. -/
theorem onto_eq_counterpart (hf' : w'.files[σ n.file]? = some source') (hd : d.node.tree = n.tree) :
    d.onto source'.tree = w'.counterpart σ d := by
  refine (counterpart_eq ?_).symm
  rwa [Decl.file, Node.file, hd]

/-- A name has the same candidates in both workspaces. -/
theorem candidates_onto (h : w.Mirrors w' σ) (hn : w.Knows n)
    (hf' : w'.files[σ n.file]? = some source') :
    w'.candidates (n.onto source'.tree) = (w.candidates n).map (w'.counterpart σ) ∧
      ∀ d ∈ w.candidates n, w.Knows d.node := by
  have hcopy := h.copy_of_knows hn hf'
  have hshaped := hn.shaped_tree h.sound
  obtain ⟨htop, hknown⟩ := h.topLevel_onto hn hf'
    ((⟨w, n, false⟩ : Lookup).categories (Lookup.unqualifiedState ⟨w, n, false⟩))
  have haround : ∀ scope ∈ n :: n.ancestors, scope.tree = n.tree :=
    List.forall_mem_cons.mpr ⟨rfl, fun _ => Node.tree_of_mem_ancestors⟩
  have hscopes := @shownOutward_onto _ _ _ _ _ h hn hf' _ haround none nofun
  rw [Option.map_none, List.map_cons, ← n.ancestors_onto hcopy] at hscopes
  unfold candidates
  dsimp only
  rw [isInReceiver_onto (w := w) hcopy, categories_onto (w := w) hcopy, htop, n.kind_onto hcopy,
    hscopes, List.map_append, List.map_append]
  constructor
  · refine congrArg₂ _ ?_ (congrArg _ ?_)
    · split
      · rfl
      · exact List.map_congr_left fun d hd =>
          onto_eq_counterpart hf' (tree_of_mem_shownOutward hshaped hd)
    · split
      · exact congrArg ([·]) (onto_eq_counterpart (d := Decl.implicitTypeParameter n) hf' rfl)
      · rfl
  · intro d hd
    rcases List.mem_append.mp hd with hd | hd
    · split at hd
      · cases hd
      · exact hn.of_tree_eq (tree_of_mem_shownOutward hshaped hd)
    · rcases List.mem_append.mp hd with hd | hd
      · exact hknown d hd
      · split at hd
        · rw [List.mem_singleton.mp hd]
          exact hn
        · cases hd

/-- A name refers to the same declaration in both workspaces. -/
theorem nameAnswer_onto (h : w.Mirrors w' σ) (hn : w.Knows n)
    (hf' : w'.files[σ n.file]? = some source') :
    w'.nameAnswer (n.onto source'.tree) = (w.nameAnswer n).map (w'.counterpart σ) ∧
      ∀ d ∈ w.nameAnswer n, w.Knows d.node := by
  have hcopy := h.copy_of_knows hn hf'
  have htext := n.text_onto hcopy
  have hwanted : wantedName (n.onto source'.tree) = wantedName n := by
    rw [wantedName, htext, wantedName]
  obtain ⟨hcandidates, hknown⟩ := h.candidates_onto hn hf'
  unfold nameAnswer
  dsimp only
  rw [n.span_onto hcopy, Decl.declaredByName?_onto hcopy, htext, hwanted, hcandidates]
  split
  · exact ⟨rfl, by simp⟩
  · cases hdecl : Decl.declaredByName? n with
    | some d =>
        have htree : d.node.tree = n.tree := tree_of_offers (b := false) (.ownName hdecl)
        have hd : w.Knows d.node := hn.of_tree_eq htree
        rw [Option.map_some]
        dsimp only
        rw [onto_eq_counterpart hf' htree, h.fits_counterpart hn hf' hd]
        split
        · refine ⟨rfl, ?_⟩
          rintro _ ⟨⟩
          exact hd
        · exact ⟨rfl, by simp⟩
    | none =>
        rw [Option.map_none]
        dsimp only
        split
        · exact ⟨rfl, by simp⟩
        · exact ⟨h.find?_fits_counterpart hn hf' hknown _,
            fun d hd => hknown d (List.mem_of_find?_eq_some hd)⟩

end Mirrors

/-! ### Places -/

/-- The path of a file. -/
def pathOf? (w : Workspace) (file : FileId) : Option String := w.files[file]?.map (·.path)

/-- Where a declaration stands: the path of its file, the kind of its node and the place of the node
in the text. -/
def place (w : Workspace) (d : Decl) : Option String × NodeKind × Span :=
  (w.pathOf? d.file, d.node.kind, d.node.span)

namespace Mirrors

variable {w w' : Workspace} {σ : FileId → FileId} {n n' : Node} {d : Decl}

theorem pathOf?_eq (h : w.Mirrors w' σ) (hn : w.Knows n) :
    w'.pathOf? (σ n.file) = w.pathOf? n.file := by
  obtain ⟨source, hf, -⟩ := hn
  obtain ⟨source', hf', -, hpath⟩ := h.copy hf
  rw [pathOf?, hf', pathOf?, hf, Option.map_some, Option.map_some, hpath]

theorem place_counterpart (h : w.Mirrors w' σ) (hd : w.Knows d.node) :
    w'.place (w'.counterpart σ d) = w.place d := by
  obtain ⟨-, source', hf', hcopy⟩ := h.exists_copy hd
  have hfile : (d.onto source'.tree).file = σ d.node.file := by
    change (d.node.onto source'.tree).file = _
    rw [Node.file, d.node.tree_onto, h.sound'.file_eq hf']
  rw [counterpart_eq hf', place, hfile, h.pathOf?_eq hd]
  exact congrArg₂ (fun kind span => (w.pathOf? d.file, kind, span)) (d.node.kind_onto hcopy)
    (d.node.span_onto hcopy)

/-- A node is told by the path of its file and its position. -/
theorem eq_onto (h : w.Mirrors w' σ) (hn : w.Knows n) (hn' : w'.Knows n')
    (hpath : w.pathOf? n.file = w'.pathOf? n'.file) (hid : n.id = n'.id) :
    ∃ source' : SourceFile, w'.files[σ n.file]? = some source' ∧ n' = n.onto source'.tree := by
  obtain ⟨-, source', hf', hcopy⟩ := h.exists_copy hn
  obtain ⟨source'', hf'', htree''⟩ := hn'
  refine ⟨source', hf', (Node.onto_of_id_eq hcopy ?_ hid.symm).symm⟩
  rw [← h.pathOf?_eq hn, pathOf?, pathOf?, hf', hf'', Option.map_some, Option.map_some] at hpath
  have hp := (h.consistent'.path _ _ hf').2
  rw [Option.some.inj hpath, (h.consistent'.path _ _ hf'').2] at hp
  rw [← Option.some.inj hp, hf''] at hf'
  rw [← htree'', Option.some.inj hf']

end Mirrors

end Workspace

end TolkAnalysis
