import TolkAnalysis.Proofs.Resolution.Mirrored
import TolkAnalysis.Proofs.Resolution.Lexical

/-!
# The order in which files are read

A name that does not stand after a dot and names no entry of an object literal refers to the same
declaration in any two sessions that hold the same texts under the same paths, whatever the order in
which these were read, replaced and removed (`Session.resolve_load_order`). The file of the builtin
types has to stay: a session in which it has been removed and read again does not look for names in
it.

An answer about a node of a replaced tree is remembered under the number of a node of the current
tree, so the sessions must not have been asked about such nodes
(`Session.not_resolve_load_order_of_stale`).
-/

namespace TolkAnalysis

namespace Workspace

/-! ### Texts -/

section

variable {w w' : Workspace}

/-- Reading a text changes the text at its path and no other. -/
theorem Sound.textAt?_load (h : w.Sound) (path text p : String) :
    (w.load path text).2.textAt? p = if p = path then some text else w.textAt? p := by
  have hregister := h.register path
  have hbyPath : (w.load path text).2.byPath = (w.register path).2.byPath := rfl
  have hfiles := (w.register_files path).1
  rw [textAt?, hbyPath]
  by_cases hp : p = path
  · rw [if_pos hp, hp, w.register_byPath path, Option.bind_some]
    exact congrArg (Option.map _) (w.tree?_load path text)
  · rw [if_neg hp, textAt?]
    have hsame : (w.register path).2.byPath[p]? = w.byPath[p]? := by
      obtain ⟨-, hw⟩ | ⟨-, -, hinsert, -⟩ := w.register_cases path
      · rw [hw]
      · rw [hinsert, Std.HashMap.getElem?_insert,
          if_neg (mt beq_iff_eq.mp fun heq : path = p => hp heq.symm)]
    cases hfile : (w.register path).2.byPath[p]? with
    | none => rw [← hsame, hfile]; rfl
    | some file =>
        have hne : ¬((w.register path).1 == file) = true := fun heq => by
          rw [← beq_iff_eq.mp heq] at hfile
          exact hp (hregister.sound.path_unique hfile (w.register_byPath path))
        rw [← hsame, hfile, Option.bind_some, Option.bind_some, tree?, tree?]
        unfold Workspace.load
        dsimp only
        rw [Std.HashMap.getElem?_insert, if_neg hne, hfiles]

/-- Texts of the same lengths are short in both workspaces or in neither. -/
theorem HasShortTexts.of_textAt? (hshort : w.HasShortTexts) (h' : w'.Consistent)
    (hsame : ∀ path, w.textAt? path = w'.textAt? path) : w'.HasShortTexts := by
  intro file' source' hf'
  have htext := hsame source'.path
  rw [textAt?_of_files (h'.path _ _ hf').2 hf', textAt?] at htext
  obtain ⟨t, ht, heq⟩ := Option.map_eq_some_iff.mp htext
  obtain ⟨file, -, htree⟩ := Option.bind_eq_some_iff.mp ht
  obtain ⟨source, hf, rfl⟩ := exists_source_of_tree? htree
  rw [← heq]
  exact hshort hf

end

/-! ### The file of the builtin types -/

section

variable {w w' : Workspace}

theorem ofConfig_config (config : SessionConfig) : (ofConfig config).config = config := by
  unfold ofConfig
  dsimp only
  split
  · exact (empty config).load_config Stubs.path Stubs.source
  · rfl

theorem keepsStubs_ofConfig (config : SessionConfig) : (ofConfig config).KeepsStubs := by
  cases hload : config.loadStubs with
  | true =>
      have hw : ofConfig config = { ((empty config).load Stubs.path Stubs.source).2 with
          stubs := some ((empty config).load Stubs.path Stubs.source).1 } := if_pos hload
      rw [hw]
      refine ⟨fun _ => ⟨_, rfl, (empty config).register_byPath Stubs.path⟩, fun hnone => ?_⟩
      rw [← hw, ofConfig_config, hload] at hnone
      cases hnone
  | false =>
      have hw : ofConfig config = empty config := if_neg (by rw [hload]; exact Bool.false_ne_true)
      rw [hw]
      exact ⟨fun h => absurd (hload.symm.trans h) nofun, fun _ => rfl⟩

theorem stubs_load (w : Workspace) (path text : String) :
    (w.load path text).2.stubs = w.stubs := by
  have h : (w.register path).2.stubs = w.stubs := by
    unfold register
    split <;> rfl
  exact h

theorem KeepsStubs.load (h : w.KeepsStubs) (path text : String) :
    (w.load path text).2.KeepsStubs := by
  have hconfig := w.load_config path text
  refine ⟨fun hload => ?_, fun hload => ?_⟩
  · obtain ⟨file, hfile, hp⟩ := h.found (hconfig ▸ hload)
    exact ⟨file, (w.stubs_load path text).trans hfile, register_byPath_of_some hp⟩
  · rw [w.stubs_load]
    exact h.absent (hconfig ▸ hload)

theorem KeepsStubs.remove (h : w.KeepsStubs) {path : String} (hw : w.remove path = .ok w')
    (hne : w.config.loadStubs = true → Path.normalize path ≠ Stubs.path) : w'.KeepsStubs := by
  obtain ⟨file, -, rfl⟩ := exists_of_remove_ok hw
  refine ⟨fun hload => ?_, h.absent⟩
  obtain ⟨stub, hstub, hp⟩ := h.found hload
  refine ⟨stub, hstub, ?_⟩
  dsimp only
  rw [Std.HashMap.getElem?_erase, if_neg (mt beq_iff_eq.mp (hne hload))]
  exact hp

end

end Workspace

namespace Session

/-- No change removes the file of the builtin types, if there is one. -/
def KeepsStubs (config : SessionConfig) (changes : List Change) : Prop :=
  config.loadStubs = true → ∀ path, Change.remove path ∈ changes → Path.normalize path ≠ Stubs.path

/-- A change keeps the settings, and the file of the builtin types if it does not remove it. -/
theorem Change.keepsStubs (c : Change) {s : Session} (h : s.workspace.KeepsStubs)
    (hc : KeepsStubs s.workspace.config [c]) :
    (c.run s).2.workspace.KeepsStubs ∧ (c.run s).2.workspace.config = s.workspace.config := by
  cases c with
  | replace path text => exact ⟨h.load _ text, s.workspace.load_config _ text⟩
  | remove path =>
      cases hs : s.remove path with
      | ok s' =>
          obtain ⟨w, hw, rfl⟩ := exists_of_remove hs
          simp only [Change.run, hs]
          refine ⟨h.remove hw fun hload => hc hload path List.mem_cons_self, ?_⟩
          obtain ⟨file, -, rfl⟩ := Workspace.exists_of_remove_ok hw
          rfl
      | error reason =>
          simp only [Change.run, hs]
          exact ⟨h, trivial⟩

theorem keepsStubs_afterSteps {s : Session} (h : s.workspace.KeepsStubs) {steps : List Step}
    (hsteps : KeepsStubs s.workspace.config (changes steps)) :
    (s.afterSteps steps).workspace.KeepsStubs ∧
      (s.afterSteps steps).workspace.config = s.workspace.config := by
  induction steps generalizing s with
  | nil => exact ⟨h, rfl⟩
  | cons step steps ih =>
      cases step with
      | change c =>
          have hfirst : KeepsStubs s.workspace.config [c] := fun hload path hmem =>
            hsteps hload path (List.mem_singleton.mp hmem ▸ List.mem_cons_self)
          have hrest : KeepsStubs s.workspace.config (changes steps) := fun hload path hmem =>
            hsteps hload path (List.mem_cons_of_mem _ hmem)
          obtain ⟨hkept, hconfig⟩ := c.keepsStubs h hfirst
          obtain ⟨hkept, hconfig'⟩ := ih hkept (hconfig ▸ hrest)
          exact ⟨hkept, hconfig'.trans hconfig⟩
      | ask request =>
          have hsame := request.after_workspace s
          have hrun : (Step.run s (.ask request)).2.workspace = s.workspace := hsame
          obtain ⟨hkept, hconfig⟩ := ih (hrun ▸ h) (hrun ▸ hsteps)
          exact ⟨hkept, hconfig.trans (congrArg _ hrun)⟩
      | clear => exact ih h hsteps

/-- Two sessions with the same settings, which have kept the file of the builtin types, hold the
same texts under the same paths. -/
structure SameTexts (config : SessionConfig) (steps steps' : List Step) : Prop where
  keepsStubs : KeepsStubs config (changes steps)
  keepsStubs' : KeepsStubs config (changes steps')
  textAt? : ∀ path, ((ofConfig config).afterSteps steps).workspace.textAt? path =
    ((ofConfig config).afterSteps steps').workspace.textAt? path

/-- The nodes stand at the same position of the trees of one path. -/
structure SamePlace (s s' : Session) (n n' : Node) : Prop where
  reaches : s.workspace.Reaches n
  reaches' : s'.workspace.Reaches n'
  path : s.workspace.pathOf? n.file = s'.workspace.pathOf? n'.file
  id : n.id = n'.id

namespace SameTexts

variable {config : SessionConfig} {steps steps' : List Step}

theorem config_eq (h : SameTexts config steps steps') :
    ((ofConfig config).afterSteps steps).workspace.KeepsStubs ∧
      ((ofConfig config).afterSteps steps).workspace.config = config := by
  have hconfig : (ofConfig config).workspace.config = config := Workspace.ofConfig_config config
  have h := keepsStubs_afterSteps (s := ofConfig config) (Workspace.keepsStubs_ofConfig config)
    (hconfig.symm ▸ h.keepsStubs)
  exact ⟨h.1, h.2.trans hconfig⟩

theorem symm (h : SameTexts config steps steps') : SameTexts config steps' steps :=
  ⟨h.keepsStubs', h.keepsStubs, fun path => (h.textAt? path).symm⟩

theorem mirrors (h : SameTexts config steps steps') :
    ((ofConfig config).afterSteps steps).workspace.Mirrors
      ((ofConfig config).afterSteps steps').workspace
      (((ofConfig config).afterSteps steps).workspace.numberIn
        ((ofConfig config).afterSteps steps').workspace) := by
  have hreachable := (Reachable.start config).afterSteps steps
  have hreachable' := (Reachable.start config).afterSteps steps'
  obtain ⟨hkept, hconfig⟩ := h.config_eq
  obtain ⟨hkept', hconfig'⟩ := h.symm.config_eq
  exact hreachable.sound.mirrors hreachable'.sound (hreachable.sound.consistent hreachable.filed)
    (hreachable'.sound.consistent hreachable'.filed) (hconfig'.trans hconfig.symm) hkept hkept'
    h.textAt?

end SameTexts

/-- Two sessions that hold the same texts under the same paths and have been asked about nodes of
their current trees only refer the names at one place to the same declaration, unless the name
stands after a dot or names an entry of an object literal. -/
theorem resolve_load_order {config : SessionConfig} {steps steps' : List Step}
    (hsame : SameTexts config steps steps') (h : ((ofConfig config).afterSteps steps).Consulted)
    (h' : ((ofConfig config).afterSteps steps').Consulted)
    (hshort : ((ofConfig config).afterSteps steps).workspace.HasShortTexts) {n n' : Node}
    (hplace : SamePlace ((ofConfig config).afterSteps steps)
      ((ofConfig config).afterSteps steps') n n')
    (hname : Workspace.Standalone n) :
    (resolve n ((ofConfig config).afterSteps steps)).1.map
        ((ofConfig config).afterSteps steps).workspace.place =
      (resolve n' ((ofConfig config).afterSteps steps')).1.map
        ((ofConfig config).afterSteps steps').workspace.place := by
  have hmirrors := hsame.mirrors
  have hshort' : ((ofConfig config).afterSteps steps').workspace.HasShortTexts :=
    hshort.of_textAt? hmirrors.consistent' hsame.textAt?
  obtain ⟨hn, hn', hpath, hid⟩ := hplace
  obtain ⟨source', hf', rfl⟩ := hmirrors.eq_onto hn.1 hn'.1 hpath hid
  have hname' : Workspace.Standalone (n.onto source'.tree) :=
    hname.onto (hmirrors.copy_of_knows hn.1 hf')
  have hanswer := (h.mayRefer hn.1).afresh 2 _ (hmirrors.sound.resolve_name hshort hn hname)
  have hanswer' := (h'.mayRefer hn'.1).afresh 2 _ (hmirrors.sound'.resolve_name hshort' hn' hname')
  obtain ⟨honto, hknown⟩ := hmirrors.nameAnswer_onto hn.1 hf'
  rw [hanswer, hanswer', honto]
  cases hd : Workspace.nameAnswer _ n with
  | none => rfl
  | some d => exact congrArg some (hmirrors.place_counterpart (hknown d hd)).symm

/-! ### A file that is read before or after the one that it imports -/

/-- The nodes of a text that has just been read stand in the file at its normal path. -/
theorem reaches_onto_replace (s : Session) (path : String) {n : Node} {text : String}
    (htree : n.tree = (parse 0 0 text).tree) (hn : n ∈ n.tree.rootNode.preorder) :
    (s.replace path text).2.workspace.Reaches
        (n.onto (parse (s.replace path text).1 s.workspace.loaded text).tree) ∧
      (s.replace path text).2.workspace.pathOf?
        (n.onto (parse (s.replace path text).1 s.workspace.loaded text).tree).file =
        some (Path.normalize path) := by
  have hcopy : n.tree.Copy (parse (s.replace path text).1 s.workspace.loaded text).tree := by
    rw [htree]
    exact Tree.copy_parse ..
  have hfile : (n.onto (parse (s.replace path text).1 s.workspace.loaded text).tree).file =
      (s.replace path text).1 := by
    rw [Node.file, n.tree_onto]
    rfl
  refine ⟨⟨Workspace.knows_iff.mpr ?_, ?_⟩, ?_⟩
  · rw [hfile, n.tree_onto]
    exact s.workspace.tree?_load (Path.normalize path) text
  · rw [n.tree_onto, ← Node.onto_rootNode hcopy, Node.preorder_onto (n := n.tree.rootNode) hcopy]
    exact List.mem_map_of_mem hn
  · obtain ⟨source, hfiles, hpath, -⟩ :=
      s.workspace.exists_source_of_load (Path.normalize path) text
    have hfiles : (s.replace path text).2.workspace.files =
        s.workspace.files.insert (s.replace path text).1 source := hfiles
    rw [hfile, Workspace.pathOf?, hfiles, Std.HashMap.getElem?_insert_self, Option.map_some, hpath]

/-- A text that has just been read is the one at its normal path. -/
theorem Reachable.textAt?_replace {s : Session} (h : s.Reachable) (path text p : String) :
    (s.replace path text).2.workspace.textAt? p =
      if p = Path.normalize path then some text else s.workspace.textAt? p :=
  h.sound.textAt?_load (Path.normalize path) text p

/-- A text that uses a constant of a file which it imports. -/
def importingText : String := "import \"a\"\nconst b=a;"

/-- The name of the constant in that text. -/
def importedName : Node := ⟨(parse 0 0 importingText).tree, 3, by decide +kernel⟩

theorem standalone_importedName : Workspace.Standalone importedName := by
  have hslot : importedName.slot? ≠ some .field ∧ importedName.slot? ≠ some .name := by
    decide +kernel
  exact ⟨fun h => hslot.1 h.1, fun h => hslot.2 h.1⟩

/-- The file is read after the one that it imports. -/
def importedFirst : List Step :=
  [.change (.replace "/a.tolk" "const a=1;"), .change (.replace "/m.tolk" importingText)]

/-- The file is read before the one that it imports, and once more after it. -/
def importedLast : List Step :=
  [.change (.replace "/m.tolk" importingText), .change (.replace "/a.tolk" "const a=1;"),
    .change (.replace "/m.tolk" importingText)]

theorem sameTexts_importing : SameTexts { loadStubs := false } importedFirst importedLast where
  keepsStubs := nofun
  keepsStubs' := nofun
  textAt? := by
    intro p
    have hs := Reachable.start { loadStubs := false }
    have hlibrary := hs.replace "/a.tolk" "const a=1;"
    have hmain := hs.replace "/m.tolk" importingText
    have hboth := hmain.replace "/a.tolk" "const a=1;"
    have hfirst := hlibrary.textAt?_replace "/m.tolk" importingText p
    have hlast := hboth.textAt?_replace "/m.tolk" importingText p
    rw [hs.textAt?_replace] at hfirst
    rw [hmain.textAt?_replace, hs.textAt?_replace] at hlast
    refine hfirst.trans (Eq.trans ?_ hlast.symm)
    split
    · rfl
    · rfl

/-- The constant that is imported is found whichever file was read first. -/
theorem resolve_load_order_importing :
    let s := (ofConfig { loadStubs := false }).afterSteps importedFirst
    let s' := (ofConfig { loadStubs := false }).afterSteps importedLast
    ∃ n n', SamePlace s s' n n' ∧ n.kind = .identifier ∧ n.text = "a" ∧
      (resolve n s).1.map s.workspace.place = (resolve n' s').1.map s'.workspace.place := by
  let s := ((ofConfig { loadStubs := false }).replace "/a.tolk" "const a=1;").2
  let s' := (((ofConfig { loadStubs := false }).replace "/m.tolk" importingText).2.replace "/a.tolk"
    "const a=1;").2
  have hs : s.Reachable := .replace (.start _) _ _
  have hs' : s'.Reachable := .replace (.replace (.start _) _ _) _ _
  have hn : importedName ∈ importedName.tree.rootNode.preorder :=
    Node.mem_preorder_of_any (by decide +kernel)
  have hcopy : ∀ file stamp, importedName.tree.Copy (parse file stamp importingText).tree :=
    fun _ _ => Tree.copy_parse ..
  have h := reaches_onto_replace s "/m.tolk" rfl hn
  have h' := reaches_onto_replace s' "/m.tolk" rfl hn
  have hshort : (s.replace "/m.tolk" importingText).2.workspace.HasShortTexts :=
    Workspace.HasShortTexts.load (Workspace.HasShortTexts.load (Workspace.hasShortTexts_empty _) _
      (by decide +kernel)) _ (by decide +kernel)
  have hplace : SamePlace (s.replace "/m.tolk" importingText).2
      (s'.replace "/m.tolk" importingText).2 _ _ :=
    { reaches := h.1
      reaches' := h'.1
      path := h.2.trans h'.2.symm
      id := (Node.id_onto (hcopy _ _)).trans (Node.id_onto (hcopy _ _)).symm }
  refine ⟨_, _, hplace, (Node.kind_onto (hcopy _ _)).trans (by decide +kernel),
    (Node.text_onto (hcopy _ _)).trans (by decide +kernel), ?_⟩
  exact resolve_load_order sameTexts_importing (.blank (hs.replace _ _) ⟨rfl, rfl⟩)
    (.blank (hs'.replace _ _) ⟨rfl, rfl⟩) hshort hplace (standalone_importedName.onto (hcopy _ _))

/-! ### A node of a replaced tree -/

/-- After a node of a replaced tree has been asked about, a name no longer refers to what it refers
to in a session with the same files. -/
theorem not_resolve_load_order_of_stale :
    ¬ ∀ (config : SessionConfig) (steps steps' : List Step), SameTexts config steps steps' →
      ((ofConfig config).afterSteps steps).workspace.HasShortTexts → ∀ n n' : Node,
      SamePlace ((ofConfig config).afterSteps steps) ((ofConfig config).afterSteps steps') n n' →
      n.kind = .identifier → Workspace.Standalone n →
      (resolve n ((ofConfig config).afterSteps steps)).1.map
          ((ofConfig config).afterSteps steps).workspace.place =
        (resolve n' ((ofConfig config).afterSteps steps')).1.map
          ((ofConfig config).afterSteps steps').workspace.place := by
  intro h
  let n := annotationName
  let s := rereading "" "@T fun f<T>() {}"
  have hs : s.Consulted := .blank (reachable_rereading _ _) (blank_rereading _ _)
  have hshort : s.workspace.HasShortTexts :=
    hasShortTexts_rereading _ _ (by decide +kernel) (by decide +kernel)
  have hn : s.workspace.Reaches n := reaches_annotationName
  have hplain := plainName_annotationName
  have hsame := h { loadStubs := false }
    [.change (.replace "/main.tolk" ""), .change (.replace "/main.tolk" "@T fun f<T>() {}"),
      .ask (.resolve (parse 0 0 "").tree.rootNode)]
    [.change (.replace "/main.tolk" ""), .change (.replace "/main.tolk" "@T fun f<T>() {}")]
    ⟨nofun, nofun, fun _ => rfl⟩ hshort n n ⟨hn, hn, rfl, rfl⟩ hplain.kind hplain.standalone
  have hlookUp : (resolve n s).1 = s.workspace.lookUp n :=
    (hs.mayRefer hn.1).afresh 2 _ (hs.reachable.sound.resolve_plainName hshort hn hplain)
  have hsome : (s.workspace.lookUp n).isSome = true := isSome_lookUp_annotationName
  have hnone := (congrArg (Option.map _) resolve_annotationName_of_stale).symm.trans hsame
  rw [← hlookUp] at hsome
  have hempty : (resolve n s).1 = none := Option.map_eq_none_iff.mp hnone.symm
  rw [hempty] at hsome
  cases hsome

end Session

end TolkAnalysis
