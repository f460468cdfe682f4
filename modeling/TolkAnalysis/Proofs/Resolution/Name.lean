import TolkAnalysis.Proofs.Resolution.Unqualified

/-!
# Names

A name that does not stand after a dot and names no entry of an object literal refers to the
declaration that it is the name of, or else to the first that fits among `Workspace.candidates`:
what the scopes around it show, what the files that its file can see declare, and, in a receiver,
the type parameter that the name itself introduces. `Workspace.Sound.resolve_name` says that the
rules alone end with this answer, whether values or types are meant. For the name of a value it is
what looking the name up in its environment gives (`Workspace.Sound.resolve_valueName`).
-/

namespace TolkAnalysis

namespace Workspace

variable {w : Workspace} {n : Node}

/-- The declarations that a name may refer to, nearest first. Nothing around a receiver is in its
scope. -/
def candidates (w : Workspace) (n : Node) : List Decl :=
  let l : Lookup := ⟨w, n, false⟩
  (if l.isInReceiver then [] else l.shownOutward w.introduces none (n :: n.ancestors)) ++
    (w.topLevel (l.categories l.unqualifiedState) n.file ++
      if l.isInReceiver && n.kind == .typeIdentifier then [Decl.implicitTypeParameter n] else [])

/-- What a name refers to that does not stand after a dot and names no entry of an object
literal. -/
def nameAnswer (w : Workspace) (n : Node) : Option Decl :=
  let l : Lookup := ⟨w, n, false⟩
  if n.span.isEmpty then none
  else
    match Decl.declaredByName? n with
    | some d => if l.fits (Text.withoutBackticks n.text) d then some d else none
    | none =>
        if n.text == "" || n.text == "_" then none
        else (w.candidates n).find? (l.fits (wantedName n))

/-- A name is looked for among its candidates. -/
theorem Standalone.lists_searchUnqualified (h : Standalone n) (hsound : w.Sound)
    (hshort : w.HasShortTexts) (hn : w.Reaches n)
    (htext : (n.text == "" || n.text == "_") = false) :
    (⟨w, n, false⟩ : Lookup).Lists (w.afresh 1) (wantedName n)
      (Lookup.searchUnqualified ⟨w, n, false⟩) (w.candidates n) := by
  let l : Lookup := ⟨w, n, false⟩
  have hwanted : l.wanted l.unqualifiedState = wantedName n := Lookup.wanted_unqualifiedState
  have haround : l.Lists (w.afresh 1) (wantedName n) (l.searchAround l.unqualifiedState)
      (if l.isInReceiver then [] else l.shownOutward w.introduces none (n :: n.ancestors)) := by
    unfold Lookup.searchAround
    split
    · exact Lookup.lists_pure
    · refine Lookup.lists_searchOutward rfl hwanted (fun scope hscope m hm => ?_) none
      have hK := hsound.closed_reaches
      exact hsound.resolve_receiverName hshort (Lookup.closed_scope hK hn hscope) hm
  have hintroduced : l.Lists (w.afresh 1) (wantedName n) (l.searchIntroduced l.unqualifiedState)
      (if l.isInReceiver && n.kind == .typeIdentifier then [Decl.implicitTypeParameter n]
        else []) := by
    unfold Lookup.searchIntroduced
    split
    · rw [Lookup.offer, hwanted]
      exact Lookup.lists_offerNamed rfl _
    · exact Lookup.lists_pure
  have hlists := Lookup.lists_searchUnqualified rfl hwanted htext (h.not_entry false) haround
    hintroduced
  rw [hsound.visible_eq l rfl] at hlists
  exact hlists

/-- The rules alone end with the answer for a name. -/
theorem Sound.resolve_name (h : w.Sound) (hshort : w.HasShortTexts) (hn : w.Reaches n)
    (hname : Standalone n) : (w.afresh 2).resolve n = some (w.nameAnswer n) := by
  change (Resolution.first w n).eval? (w.afresh 1) = _
  have answer : ∀ {ds : List Decl} {wanted : String},
      (⟨w, n, false⟩ : Lookup).Lists (w.afresh 1) wanted (Lookup.search ⟨w, n, false⟩) ds →
        (Resolution.first w n).eval? (w.afresh 1) =
          some (ds.find? ((⟨w, n, false⟩ : Lookup).fits wanted)) := Lookup.eval?_first
  unfold nameAnswer
  dsimp only
  unfold Lookup.search at answer
  dsimp only at answer
  split
  · rename_i hspan
    rw [if_pos hspan] at answer
    exact @answer _ "" Lookup.lists_pure
  · rename_i hspan
    rw [if_neg hspan] at answer
    cases hdecl : Decl.declaredByName? n with
    | some d =>
        rw [hdecl] at answer
        dsimp only at answer ⊢
        refine (answer (Lookup.lists_offerNamed rfl d)).trans (congrArg some ?_)
        rw [Lookup.wanted_empty, List.find?_singleton]
        rfl
    | none =>
        rw [hdecl, hname.qualifier? false] at answer
        dsimp only at answer ⊢
        split
        · rename_i htext
          have hnothing : Lookup.searchUnqualified ⟨w, n, false⟩ = pure () := if_pos htext
          rw [hnothing] at answer
          exact @answer _ "" Lookup.lists_pure
        · rename_i htext
          exact answer (hname.lists_searchUnqualified h hshort hn (Bool.eq_false_iff.mpr htext))

/-- A name that is not blank and declares nothing refers to the first candidate that fits. -/
theorem nameAnswer_eq_find? (hsound : n.tree.Sound) (hkind : n.kind ≠ .sourceFile)
    (hown : Decl.declaredByName? n = none) (hblank : n.text ≠ "_") :
    w.nameAnswer n = (w.candidates n).find? ((⟨w, n, false⟩ : Lookup).fits (wantedName n)) := by
  have htext : (n.text == "" || n.text == "_") = false := by
    rw [Bool.or_eq_false_iff]
    exact ⟨beq_eq_false_iff_ne.mpr (hsound.text_ne_empty rfl hkind), beq_eq_false_iff_ne.mpr hblank⟩
  unfold nameAnswer
  dsimp only
  rw [hsound.isEmpty_span rfl hkind, hown, htext]
  rfl

/-- The name of a type refers to what the scopes around it show or its own file declares, if one
of these declarations fits. -/
theorem Sound.resolve_typeName (h : w.Sound) (hshort : w.HasShortTexts) (hn : w.Reaches n)
    (hname : Standalone n) (hown : Decl.declaredByName? n = none) (hblank : n.text ≠ "_")
    (htypes : (⟨w, n, false⟩ : Lookup).forTypes = true)
    (houtside : (⟨w, n, false⟩ : Lookup).isInReceiver = false) {d : Decl}
    (hd : ((⟨w, n, false⟩ : Lookup).shownOutward w.introduces none (n :: n.ancestors) ++
      Category.types.flatMap n.tree.declared).find?
        ((⟨w, n, false⟩ : Lookup).fits (wantedName n)) = some d) :
    (w.afresh 2).resolve n = some (some d) := by
  have hkind : n.kind ≠ .sourceFile := by
    intro hkind
    rw [Lookup.forTypes, hkind] at htypes
    cases htypes
  obtain ⟨ds, htop⟩ := exists_topLevel_eq Category.types (knows_iff.mp hn.1)
  rw [h.resolve_name hshort hn hname,
    nameAnswer_eq_find? (hn.1.sound_tree h hshort) hkind hown hblank]
  unfold candidates
  dsimp only
  rw [houtside, categories_of_forTypes _ htypes, htop]
  simp only [Bool.false_eq_true, if_false, Bool.false_and]
  rw [List.append_nil, ← List.append_assoc, List.find?_append, hd]
  rfl

/-- A name outside receivers, around which no method has one with names in it, is found without a
question. It may stand in a tree that has been replaced. -/
theorem Standalone.resolve_afresh_one (hname : Standalone n) (h : w.Sound) {t : Tree}
    (htree : w.tree? n.file = some t) (hspan : n.span.isEmpty = false)
    (hown : Decl.declaredByName? n = none) (htext : (n.text == "" || n.text == "_") = false)
    (houtside : (⟨w, n, false⟩ : Lookup).isInReceiver = false)
    (hreceivers : ∀ scope ∈ n :: n.ancestors, Lookup.receiverNames scope = [])
    {categories : List Category} (hcategories : (⟨w, n, false⟩ : Lookup).categories
      (⟨w, n, false⟩ : Lookup).unqualifiedState = categories) {d : Decl}
    (hd : ((⟨w, n, false⟩ : Lookup).shownOutward (fun _ => false) none (n :: n.ancestors) ++
      categories.flatMap t.declared).find?
        ((⟨w, n, false⟩ : Lookup).fits (wantedName n)) = some d) :
    (w.afresh 1).resolve n = some (some d) := by
  let l : Lookup := ⟨w, n, false⟩
  have hwanted : l.wanted l.unqualifiedState = wantedName n := Lookup.wanted_unqualifiedState
  have haround : l.Lists (w.afresh 0) (wantedName n) (l.searchAround l.unqualifiedState) _ :=
    Lookup.lists_searchAround rfl hwanted houtside hreceivers
  have hlists := Lookup.lists_searchUnqualified rfl hwanted htext (hname.not_entry false) haround
    (Lookup.lists_searchIntroduced houtside)
  obtain ⟨ds, htop⟩ := exists_topLevel_eq categories htree
  rw [h.visible_eq l rfl, hcategories, List.append_nil, htop, ← List.append_assoc] at hlists
  change (Resolution.first w n).eval? (w.afresh 0) = _
  rw [eval?_first hspan hown (hname.qualifier? false) hlists, List.find?_append, hd]
  rfl

/-- The name of a value refers to the first declaration in its environment that it may stand for if
it is looked for under the name of its family, or else under its own. -/
theorem Sound.resolve_valueName (h : w.Sound) (hshort : w.HasShortTexts) (hn : w.Reaches n)
    (hname : ValueName n) : (w.afresh 2).resolve n = some (w.lookUpAs (wantedName n) n) := by
  have hsound := hn.1.sound_tree h hshort
  have hkind : n.kind ≠ .sourceFile := by
    rw [hname.kind]
    simp
  have hvalues : (⟨w, n, false⟩ : Lookup).forTypes = false := by
    unfold Lookup.forTypes
    rw [hname.kind]
    rfl
  have hself : Lookup.outward w.introduces none (n :: n.ancestors) =
      Lookup.outward w.introduces (some n) n.ancestors := by
    rw [Lookup.outward, Lookup.scopeDecls, hname.kind]
    simp [NodeKind.isFunctionLike, Lookup.scopeVariables, hname.kind]
  rw [h.resolve_name hshort hn hname.toStandalone,
    nameAnswer_eq_find? hsound hkind hname.undeclared hname.named,
    ← hname.find?_eq_lookUpAs h hn (knows_iff.mp hn.1)]
  unfold candidates
  dsimp only
  rw [hname.not_inReceiver hsound.shaped hn.2 false, Lookup.shownOutward_of_values hvalues, hself]
  simp only [Bool.false_eq_true, if_false, Bool.false_and, List.append_nil]

/-- The rules alone end with the declaration that the environment of a plain name
gives. -/
theorem Sound.resolve_plainName (h : w.Sound) (hshort : w.HasShortTexts) (hn : w.Reaches n)
    (hplain : PlainName n) : (w.afresh 2).resolve n = some (w.lookUp n) := by
  rw [lookUp_eq_lookUpAs, ← hplain.wantedName_eq]
  exact h.resolve_valueName hshort hn hplain.valueName

end Workspace

end TolkAnalysis
