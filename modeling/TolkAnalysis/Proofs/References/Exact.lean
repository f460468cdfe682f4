import TolkAnalysis.Proofs.References.Scope
import TolkAnalysis.Proofs.References.Target
import TolkAnalysis.Proofs.Session.Rereading

/-!
# A search finds every use

A search asks only about names that are spelled like its target and stand in the scope of its
uses. No other name refers to the target (`Session.Consulted.mayRefer_of_refersTo`), so in a
session that has been asked about nodes of the current trees only, the result of a search lists
every name that refers to the target, in order
(`Session.Consulted.references_exact`).
-/

namespace TolkAnalysis

namespace Workspace

variable {w : Workspace}

/-- A node stands before another: its file is registered earlier, or it ends earlier in the same
file. -/
def Precedes (w : Workspace) (n m : Node) : Prop :=
  [n.file, m.file].Sublist w.order ∨ n.file = m.file ∧ n.span.stop ≤ m.span.start

theorem Sound.not_precedes_self (h : w.Sound) (hshort : w.HasShortTexts) {n : Node}
    (hn : w.Reaches n) (hkind : n.kind ≠ .sourceFile) : ¬w.Precedes n n := by
  rintro (htwice | ⟨-, hle⟩)
  · exact List.nodup_iff_sublist.mp h.nodup _ htwice
  · have hspan := (hn.1.sound_tree h hshort).isEmpty_span rfl hkind
    simp only [Span.isEmpty, decide_eq_false_iff_not] at hspan
    exact hspan hle

end Workspace

namespace ReferenceSearch

variable {r : ReferenceSearch}

/-- Every scope of a search is a node of a current tree. -/
theorem reaches_scopes (h : r.workspace.Sound) (ht : r.workspace.Reaches r.target.node) :
    ∀ scope ∈ r.scopes, r.workspace.Reaches scope :=
  closed_scopes h.closed_reaches ht

/-- The scopes of a search lie in different files, in the order of registration. -/
theorem ordered_scopes (h : r.workspace.Sound) (hfiles : r.options.sameFileOnly = false) :
    r.scopes.Pairwise fun a b => [a.file, b.file].Sublist r.workspace.order := by
  unfold scopes
  split
  · exact List.pairwise_singleton _ _
  · have horder : r.workspace.order.Pairwise fun a b => [a, b].Sublist r.workspace.order :=
      List.pairwise_iff_forall_sublist.mpr fun hsub => hsub
    rw [hfiles, if_neg Bool.false_ne_true, List.pairwise_map]
    refine List.Pairwise.filterMap _ (fun a b hab t ht u hu => ?_) horder
    obtain ⟨source, hf, rfl⟩ := Workspace.exists_source_of_tree? ht
    obtain ⟨source', hf', rfl⟩ := Workspace.exists_source_of_tree? hu
    rw [show source.tree.rootNode.file = a from h.file_eq hf,
      show source'.tree.rootNode.file = b from h.file_eq hf']
    exact hab

theorem ordered_candidates (h : r.workspace.Sound) (hshort : r.workspace.HasShortTexts)
    (ht : r.workspace.Reaches r.target.node) (hfiles : r.options.sameFileOnly = false) :
    (r.scopes.flatMap r.candidates).Pairwise r.workspace.Precedes := by
  have file_eq : ∀ {scope n : Node}, n ∈ r.candidates scope → n.file = scope.file := fun hn =>
    congrArg Tree.file (Node.tree_of_mem_preorder (List.mem_filter.mp hn).1)
  refine List.pairwise_flatMap.mpr ⟨fun scope hscope => ?_, ?_⟩
  · have hsound := (r.reaches_scopes h ht scope hscope).1.sound_tree h hshort
    have hnames := hsound.ordered_names (n := scope) rfl
    have hsub : (r.candidates scope).Sublist (scope.preorder.filter (·.kind.isReferenceLike)) := by
      refine List.monotone_filter_right _ fun n hn => ?_
      exact (Bool.and_eq_true_iff.mp hn).1
    refine (hnames.sublist hsub).imp_of_mem fun {a b} ha hb hab => .inr ⟨?_, hab⟩
    exact (file_eq ha).trans (file_eq hb).symm
  · refine (r.ordered_scopes h hfiles).imp fun {a b} hab n hn m hm => .inl ?_
    rw [file_eq hn, file_eq hm]
    exact hab

/-- A name that may be a use stands below a scope of the search if it stands in the scope of the
target. -/
theorem mem_candidates (h : r.workspace.Sound) (hfiles : r.options.sameFileOnly = false) {n : Node}
    (hn : r.workspace.Reaches n) (hspelled : r.mayRefer n = true)
    (hscope : ∀ scope, r.target.useScope? = some scope → n ∈ scope.preorder) :
    n ∈ r.scopes.flatMap r.candidates := by
  have below : ∀ {scope : Node}, n ∈ scope.preorder → scope ∈ r.scopes →
      n ∈ r.scopes.flatMap r.candidates := fun hin hmem =>
    List.mem_flatMap.mpr ⟨_, hmem, List.mem_filter.mpr ⟨hin, hspelled⟩⟩
  cases huse : r.target.useScope? with
  | some scope =>
      refine below (hscope scope huse) ?_
      rw [scopes, huse]
      exact List.mem_singleton_self scope
  | none =>
      obtain ⟨⟨source, hf, htree⟩, hroot⟩ := hn
      refine below hroot ?_
      rw [scopes, huse, hfiles]
      refine List.mem_map.mpr ⟨n.tree, List.mem_filterMap.mpr ⟨n.file, h.listed hf, ?_⟩, rfl⟩
      rw [Workspace.tree?, hf, Option.map_some, htree]

end ReferenceSearch

namespace Session

variable {s : Session} {n : Node} {d e : Decl}

/-- A name refers to a declaration, and it is not the declared name itself. -/
def RefersTo (s : Session) (d : Decl) (n : Node) : Prop :=
  (∃ e ∈ (resolveAll n s).1, e.isSame d = true) ∧ d.nameNode? ≠ some n

/-- When nothing is in flight, a search without limits keeps the names below its scopes that refer
to its target by the answers that are remembered after it. -/
theorem references_run (h : s.caches.Idle) (d : Decl)
    (htimeout : s.workspace.config.referenceTimeout = none) :
    (references d {} s).1 = .ok
      (((⟨s.workspace, d, {}⟩ : ReferenceSearch).scopes.flatMap
        (ReferenceSearch.candidates ⟨s.workspace, d, {}⟩)).filter
        (ReferenceSearch.refersAt ⟨s.workspace, d, {}⟩ (references d {} s).2.caches)) := by
  let r : ReferenceSearch := ⟨s.workspace, d, {}⟩
  have hrun : r.run.run s.workspace.oracle s.caches =
      (((r.collectAll #[] r.scopes).run s.workspace.oracle s.caches).1.map (·.toList),
        ((r.collectAll #[] r.scopes).run s.workspace.oracle s.caches).2) := Query.run_bind ..
  have hgrows : ((r.collectAll #[] r.scopes).run s.workspace.oracle s.caches).2.Grows
      (references d {} s).2.caches := by
    rw [← congrArg Prod.snd hrun]
    exact .refl _
  obtain ⟨result, hresult, hlist⟩ := ReferenceSearch.collectAll_run (r := r) (fun _ => rfl)
    (by rw [htimeout]; rfl) r.scopes #[] h hgrows
  change (r.run.run s.workspace.oracle s.caches).1 = _
  rw [hrun, hresult, ← List.nil_append (List.filter ..)]
  exact congrArg Except.ok hlist

/-- A name that is no entry of an object literal refers to one declaration at most. -/
theorem resolveAll_eq (s : Session) (hentry : Resolution.isShorthand n = false) :
    (resolveAll n s).1 = (resolve n s).1.toList := by
  change ((Resolution.every s.workspace n).run s.workspace.oracle s.caches).1 = _
  unfold Resolution.every
  rw [if_neg (by rw [hentry]; exact Bool.false_ne_true), Query.run_bind]
  rfl

namespace Consulted

/-- What a consulted session refers a name to has been found, and a name that declares something
refers to nothing else. -/
theorem finds_of_mem_resolveAll (h : s.Consulted) (hshort : s.workspace.HasShortTexts)
    (hn : s.workspace.Reaches n) (hname : n.kind.isReferenceLike = true)
    (he : e ∈ (resolveAll n s).1) :
    (∃ b, (⟨s.workspace, n, b⟩ : Lookup).Finds s.workspace.Reaches e) ∧
      ∀ d ∈ Decl.declaredByName? n, e = d := by
  have hsound := h.reachable.sound
  have hK := hsound.closed_reaches
  have hsettles := Query.settles hsound
    ((Resolution.within_every hsound.closed_knows.asking hn.1).mono fun _ _ => trivial)
    h.reachable.idle h.trusted
  cases hentry : Resolution.isShorthand n with
  | true =>
      refine ⟨⟨true, ?_⟩, by simp [Resolution.declaredByName?_of_isShorthand hentry]⟩
      refine hsettles.good _ hK (fun ds => ∀ d ∈ ds, Lookup.Finds _ _ d) ?_ e he
      unfold Resolution.every
      rw [if_pos hentry]
      refine (Query.within_bind ..).mpr ((Lookup.within_run
        (Lookup.collects_search (l := ⟨s.workspace, n, true⟩) hK.asking hn)).mono fun ds hds d hd => ?_)
      exact hds d (Resolution.mem_distinct d hd)
  | false =>
      have hresolve : e ∈ (resolve n s).1 := by
        rw [resolveAll_eq s hentry] at he
        exact Option.mem_toList.mp he
      refine ⟨⟨false, (h.mayRefer hn.1).found _ hK hn e hresolve⟩, fun d hd => ?_⟩
      have htree := hn.1.sound_tree hsound hshort
      have hkind : n.kind ≠ .sourceFile := by
        intro hkind
        rw [hkind] at hname
        cases hname
      have hfirst := Resolution.first_of_declaredByName? (w := s.workspace)
        (htree.isEmpty_span rfl hkind) hd (Decl.nameNode?_of_declaredByName? htree.shaped hn.2 hd)
      have hafresh : (s.workspace.afresh 1).resolve n = some (some d) := by
        change (Resolution.first s.workspace n).eval? _ = _
        rw [hfirst]
        rfl
      rw [(h.mayRefer hn.1).afresh 1 _ hafresh] at hresolve
      exact (Option.some_inj.mp hresolve).symm

/-- A name refers to a declaration if the declaration is among those that it refers to. -/
theorem mem_resolveAll_of_isSame (h : s.Consulted) (hshort : s.workspace.HasShortTexts)
    (hd : s.workspace.Reaches d.node) (hproper : d.Proper) (hn : s.workspace.Reaches n)
    (hname : n.kind.isReferenceLike = true) (he : e ∈ (resolveAll n s).1)
    (hsame : e.isSame d = true) : e = d := by
  have hsound := h.reachable.sound
  obtain ⟨⟨_, hfinds⟩, -⟩ := h.finds_of_mem_resolveAll hshort hn hname he
  exact hsound.eq_of_isSame hshort hd
    (hfinds.offered.closed hsound.closed_reaches hn) hproper
    (hsound.proper_of_offers hfinds.offered) hsame

/-- A name that refers to a declaration is spelled like it and stands in the scope of its
uses. -/
theorem mayRefer_of_refersTo (h : s.Consulted) (hshort : s.workspace.HasShortTexts)
    (hd : s.workspace.Reaches d.node) (hproper : d.Proper)
    (hfamily : d.name ∉ sizedTypeFamilies.map Prod.snd) (hn : s.workspace.Reaches n)
    (hname : n.kind.isReferenceLike = true) (hrefers : s.RefersTo d n) :
    Text.withoutBackticks n.text = d.name ∧
      ∀ scope, d.useScope? = some scope → n ∈ scope.preorder := by
  obtain ⟨⟨e, he, hsame⟩, hown⟩ := hrefers
  obtain rfl := h.mem_resolveAll_of_isSame hshort hd hproper hn hname he hsame
  have hsound := h.reachable.sound
  obtain ⟨⟨b, hfinds⟩, hdeclares⟩ := h.finds_of_mem_resolveAll hshort hn hname he
  have hundeclared : Decl.declaredByName? n = none := by
    refine Option.eq_none_iff_forall_not_mem.mpr fun d hd => hown ?_
    rw [hdeclares d hd]
    exact Decl.nameNode?_of_declaredByName? (hn.1.shaped_tree hsound) hn.2 hd
  refine ⟨hfinds.spelled hsound hn hname hfamily, ?_⟩
  exact (hsound.found_in_scope hn hname hundeclared hfinds).resolve_left hown

/-- The search asks in the way in which the session is asked after it. -/
theorem refersAt_iff (h : s.Consulted) (hshort : s.workspace.HasShortTexts)
    (hd : s.workspace.Reaches d.node) (hproper : d.Proper) (hn : s.workspace.Reaches n)
    (hname : n.kind.isReferenceLike = true) (options : ReferenceOptions) :
    (⟨s.workspace, d, options⟩ : ReferenceSearch).refersAt s.caches n = true ↔ s.RefersTo d n := by
  have own : d.nameNode?.any (· == n) = true ↔ d.nameNode? = some n := by
    rw [Option.any_eq_true]
    constructor
    · rintro ⟨m, hm, hmn⟩
      have hK := h.reachable.sound.closed_knows
      have hmknows : s.workspace.Knows m := by
        unfold Decl.nameNode? at hm
        split at hm
        · cases hm
          exact hd.1
        · exact hK.child? hd.1 hm
      rw [hm, hmknows.eq_of_beq hn.1 h.reachable.sound hmn]
    · exact fun hown => ⟨n, hown, Node.beq_self n⟩
  rw [ReferenceSearch.refersAt_eq, List.any_eq_true]
  constructor
  · rintro ⟨e, he, htarget⟩
    obtain ⟨hsame, hown⟩ := Bool.and_eq_true_iff.mp htarget
    refine ⟨⟨e, he, hsame⟩, fun hname' => ?_⟩
    obtain rfl := h.mem_resolveAll_of_isSame hshort hd hproper hn hname he hsame
    rw [own.mpr hname'] at hown
    cases hown
  · rintro ⟨⟨e, he, hsame⟩, hown⟩
    obtain rfl := h.mem_resolveAll_of_isSame hshort hd hproper hn hname he hsame
    refine ⟨e, he, Bool.and_eq_true_iff.mpr ⟨hsame, ?_⟩⟩
    rw [Bool.not_eq_true', Bool.eq_false_iff]
    exact fun hany => hown (own.mp hany)

/-- A search without limits lists the names of the current trees that refer to its target, each
once and in order. -/
theorem references_exact (h : s.Consulted) (hshort : s.workspace.HasShortTexts)
    (hd : s.workspace.Reaches d.node) (hproper : d.Proper)
    (hfamily : d.name ∉ sizedTypeFamilies.map Prod.snd)
    (htimeout : s.workspace.config.referenceTimeout = none) :
    ∃ uses, (references d {} s).1 = .ok uses ∧ uses.Nodup ∧ uses.Pairwise s.workspace.Precedes ∧
      ∀ n, n ∈ uses ↔ s.workspace.Reaches n ∧ n.kind.isReferenceLike = true ∧
        (references d {} s).2.RefersTo d n := by
  let r : ReferenceSearch := ⟨s.workspace, d, {}⟩
  let after := (references d {} s).2
  have hsound := h.reachable.sound
  have hafter : after.Consulted :=
    show Consulted ((Request.references d {}).after s) from h.ask hd.1
  have hordered := r.ordered_candidates hsound hshort hd rfl
  have hcandidates : ∀ n ∈ r.scopes.flatMap r.candidates,
      s.workspace.Reaches n ∧ n.kind.isReferenceLike = true := by
    intro n hn
    obtain ⟨scope, hscope, hn⟩ := List.mem_flatMap.mp hn
    obtain ⟨hin, hspelled⟩ := List.mem_filter.mp hn
    exact ⟨hsound.closed_reaches.preorder (r.reaches_scopes hsound hd scope hscope)
      n hin, (Bool.and_eq_true_iff.mp hspelled).1⟩
  have hrefers : ∀ {n : Node}, s.workspace.Reaches n → n.kind.isReferenceLike = true →
      (r.refersAt after.caches n = true ↔ after.RefersTo d n) := fun hn hname =>
    hafter.refersAt_iff hshort hd hproper hn hname {}
  refine ⟨_, references_run h.reachable.idle d htimeout, ?_, hordered.sublist List.filter_sublist,
    fun n => ?_⟩
  · refine (hordered.imp_of_mem fun {a b} ha _ hab heq => ?_).sublist List.filter_sublist
    obtain ⟨ha, hname⟩ := hcandidates a ha
    refine hsound.not_precedes_self hshort ha (fun hkind => ?_) (heq ▸ hab)
    rw [hkind] at hname
    cases hname
  · rw [List.mem_filter]
    constructor
    · rintro ⟨hn, href⟩
      obtain ⟨hreach, hname⟩ := hcandidates n hn
      exact ⟨hreach, hname, (hrefers hreach hname).mp href⟩
    · rintro ⟨hreach, hname, href⟩
      obtain ⟨hspelled, hscope⟩ := hafter.mayRefer_of_refersTo hshort hd hproper hfamily hreach
        hname href
      refine ⟨r.mem_candidates hsound rfl hreach ?_ hscope, (hrefers hreach hname).mpr href⟩
      unfold ReferenceSearch.mayRefer
      rw [hname, hspelled]
      simp [r]

end Consulted

theorem proper_annotatedConstant : annotatedConstant.Proper :=
  .of_kindOf? (by decide +kernel)

theorem references_annotatedConstant :
    ∃ uses, (references annotatedConstant {} (rereading "const a=1;" "@x const a=1;")).1 = .ok uses ∧
      uses.Nodup ∧ uses.Pairwise (rereading "const a=1;" "@x const a=1;").workspace.Precedes ∧
      ∀ n, n ∈ uses ↔ (rereading "const a=1;" "@x const a=1;").workspace.Reaches n ∧
        n.kind.isReferenceLike = true ∧
        (references annotatedConstant {} (rereading "const a=1;" "@x const a=1;")).2.RefersTo
          annotatedConstant n :=
  Consulted.references_exact (.blank (reachable_rereading _ _) (blank_rereading _ _))
    (hasShortTexts_rereading _ _ (by decide +kernel) (by decide +kernel))
    reaches_annotatedConstant proper_annotatedConstant
    (by decide +kernel) (by rw [rereading_config])

/-- The answer about the name in a replaced text is given for the annotation, which is spelled
otherwise. -/
theorem not_references_exact_of_stale :
    ¬ ∀ s : Session, s.Reachable → s.workspace.HasShortTexts → ∀ d : Decl,
      s.workspace.Reaches d.node → d.Proper → d.name ∉ sizedTypeFamilies.map Prod.snd →
      s.workspace.config.referenceTimeout = none →
      ∃ uses, (references d {} s).1 = .ok uses ∧ uses.Nodup ∧ uses.Pairwise s.workspace.Precedes ∧
        ∀ n, n ∈ uses ↔ s.workspace.Reaches n ∧ n.kind.isReferenceLike = true ∧
          (references d {} s).2.RefersTo d n := by
  intro h
  let s := rereading "const a=1;" "@x const a=1;"
  let x : Node := ⟨(parse 0 0 "const a=1;").tree, 0, by decide +kernel⟩
  let n : Node := ⟨(parse 0 4 "@x const a=1;").tree, 0, by decide +kernel⟩
  have hs : s.Reachable := reachable_rereading _ _
  have hask : (resolve x s).2.Reachable := hs.ask (.resolve x)
  have htimeout : s.workspace.config.referenceTimeout = none := by rw [rereading_config]
  obtain ⟨e, he⟩ := Option.isSome_iff_exists.mp
    (show (Decl.declaredByName? x).isSome = true by decide +kernel)
  have hsame : e.isSame annotatedConstant = true := by
    have h : (Decl.declaredByName? x).all (·.isSame annotatedConstant) = true := by decide +kernel
    rwa [he] at h
  -- The name in the old text refers to the old constant, and the annotation has its number.
  have hname : e.nameNode? = some x := Decl.nameNode?_of_declaredByName?
    (shaped_parse 0 0 _) (Node.mem_preorder_of_any (by decide +kernel)) he
  have hold : (resolve x s).1 = some e := Workspace.resolve_of_first hs.idle
    (Std.HashMap.getElem?_of_isEmpty rfl)
    (Resolution.first_of_declaredByName? (by decide +kernel) he hname)
  have hanswer : (resolveAll n (references annotatedConstant {} (resolve x s).2).2).1 = [e] := by
    have hstale := resolve_of_stale hs (show n.key = x.key by decide +kernel)
      [.references annotatedConstant {}]
    rw [resolveAll_eq _ (by decide +kernel)]
    exact congrArg Option.toList (hstale.trans hold)
  obtain ⟨uses, huses, -, -, hexact⟩ := h (resolve x s).2 hask
    (hasShortTexts_rereading _ _ (by decide +kernel) (by decide +kernel)) annotatedConstant
    reaches_annotatedConstant proper_annotatedConstant
    (by decide +kernel) htimeout
  have hmem : n ∈ uses := by
    have hreach : s.workspace.Reaches n :=
      reaches_rereading _ _ (by decide +kernel) rfl (by decide +kernel)
    refine (hexact n).mpr ⟨hreach, by decide +kernel,
      ⟨e, by simp [hanswer], hsame⟩, fun hown => ?_⟩
    have h : (annotatedConstant.nameNode?.map (·.id)) = some 0 := by rw [hown]; rfl
    revert h
    decide +kernel
  -- But the search asks about names that are spelled like the constant only.
  rw [references_run hask.idle _ htimeout] at huses
  cases huses
  obtain ⟨scope, -, hin⟩ := List.mem_flatMap.mp (List.mem_filter.mp hmem).1
  have hspelled := (Bool.and_eq_true_iff.mp (List.mem_filter.mp hin).2).2
  have hother : (if n.text == "self" then true
      else Text.withoutBackticks n.text == annotatedConstant.name) = false := by decide +kernel
  exact Bool.false_ne_true (hother.symm.trans hspelled)

end Session

end TolkAnalysis
