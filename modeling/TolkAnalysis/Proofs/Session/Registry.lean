import TolkAnalysis.Proofs.Path.Import
import TolkAnalysis.Proofs.Path.Normal
import TolkAnalysis.Proofs.Session.Change

/-!
# The registry of files

A workspace says in four places which files it holds: in the table of files, in the list of
numbers, in the table of paths, and in the path that each file carries. `Workspace.Consistent`
says that the four agree. It is assembled from `Workspace.Sound` and from `Workspace.Filed`,
which holds after every change.

A number that has been given to a path is not given again: `Workspace.Follows` relates a
workspace to a later one.

A file is registered under the normal form of its path, and an import leads to a path, which is
looked up as it is. `Workspace.normal_keys` says that the two are one key, however the path of the
file and the import are spelled.
-/

namespace TolkAnalysis

namespace Workspace

variable {w w' : Workspace}

/-- The four places that say which files there are agree with each other, and what is kept of a
file was computed from its tree and its path. -/
structure Consistent (w : Workspace) : Prop where
  nodup : w.order.Nodup
  stored : ∀ file : FileId, file ∈ w.order ↔ file ∈ w.files
  found : ∀ file : FileId, file ∈ w.order ↔ ∃ path : String, w.byPath[path]? = some file
  path_unique : ∀ (path path' : String) (file : FileId), w.byPath[path]? = some file →
    w.byPath[path']? = some file → path = path'
  path : ∀ (file : FileId) (source : SourceFile), w.files[file]? = some source →
    Path.normalize source.path = source.path ∧ w.byPath[source.path]? = some file
  lt_next : ∀ file ∈ w.order, file < w.nextFile
  index : ∀ (file : FileId) (source : SourceFile), w.files[file]? = some source →
    source.index = FileIndex.ofTree source.tree
  imports : ∀ (file : FileId) (source : SourceFile), w.files[file]? = some source →
    source.imports = importsOf w.config source.path source.tree

/-- No number that had been given by the time of the earlier workspace has been given again by the
time of the later one: it stands for a path only if it did so before. -/
structure Follows (w w' : Workspace) : Prop where
  nextFile_le : w.nextFile ≤ w'.nextFile
  kept : ∀ {path : String} {file : FileId}, file < w.nextFile → w'.byPath[path]? = some file →
    w.byPath[path]? = some file

/-- Every number in the list is the number of a file, and the path of a file leads to it. -/
structure Filed (w : Workspace) : Prop where
  stored : ∀ {file : FileId}, file ∈ w.order → file ∈ w.files
  normal : ∀ {path : String} {file : FileId}, w.byPath[path]? = some file →
    Path.normalize path = path
  found : ∀ {file : FileId} {source : SourceFile}, w.files[file]? = some source →
    w.byPath[source.path]? = some file
  imports : ∀ {file : FileId} {source : SourceFile}, w.files[file]? = some source →
    source.imports = importsOf w.config source.path source.tree

/-! ### Registering -/

/-- The number of a path is a new one if the path is not known, and is listed last then. -/
theorem register_cases (w : Workspace) (path : String) :
    (w.byPath[path]? = some (w.register path).1 ∧ (w.register path).2 = w) ∨
      (w.byPath[path]? = none ∧ (w.register path).1 = w.nextFile ∧
        (w.register path).2.byPath = w.byPath.insert path w.nextFile ∧
        (w.register path).2.order = w.order ++ [w.nextFile] ∧
        (w.register path).2.nextFile = w.nextFile + 1) := by
  unfold register
  split
  · rename_i file hfile
    exact .inl ⟨hfile, rfl⟩
  · rename_i hnew
    exact .inr ⟨hnew, rfl, rfl, rfl, rfl⟩

theorem nextFile_register_le (w : Workspace) (path : String) :
    (w.register path).2.nextFile ≤ w.nextFile + 1 := by
  obtain ⟨-, hw⟩ | ⟨-, -, -, -, hnext⟩ := w.register_cases path
  · rw [hw]
    exact Nat.le_succ _
  · exact hnext.le

/-- A path that is found after another one has been registered is that one or was found before. -/
theorem cases_of_register {path p : String} {file : FileId}
    (h : (w.register path).2.byPath[p]? = some file) :
    p = path ∧ file = (w.register path).1 ∨ w.byPath[p]? = some file := by
  obtain ⟨-, hw⟩ | ⟨-, hfile, hbyPath, -⟩ := w.register_cases path
  · rw [hw] at h
    exact .inr h
  · rw [hbyPath] at h
    rcases cases_of_insert h with ⟨hp, hnew⟩ | ⟨-, hold⟩
    · exact .inl ⟨hp, hnew.trans hfile.symm⟩
    · exact .inr hold

/-- A path that was found is found after another one has been registered. -/
theorem register_byPath_of_some {path p : String} {file : FileId}
    (h : w.byPath[p]? = some file) : (w.register path).2.byPath[p]? = some file := by
  obtain ⟨-, hw⟩ | ⟨hnew, -, hbyPath, -⟩ := w.register_cases path
  · rwa [hw]
  · have hne : path ≠ p := by
      rintro rfl
      exact absurd (hnew.symm.trans h) nofun
    rw [hbyPath, Std.HashMap.getElem?_insert, if_neg (mt beq_iff_eq.mp hne)]
    exact h

theorem mem_order_register {path : String} {file : FileId}
    (h : file ∈ (w.register path).2.order) : file = (w.register path).1 ∨ file ∈ w.order := by
  obtain ⟨-, hw⟩ | ⟨-, hfile, -, horder, -⟩ := w.register_cases path
  · rw [hw] at h
    exact .inr h
  · rw [horder] at h
    rcases List.mem_append.mp h with h | h
    · exact .inr h
    · exact .inl ((List.mem_singleton.mp h).trans hfile.symm)

/-! ### Changes -/

/-- What a text is read as: the tree of the text, with what is computed from it. -/
theorem exists_source_of_load (w : Workspace) (path text : String) :
    ∃ source : SourceFile, (w.load path text).2.files = w.files.insert (w.load path text).1 source ∧
      source.path = path ∧ source.imports = importsOf w.config path source.tree := by
  have hconfig : (w.register path).2.config = w.config := w.load_config path text
  rw [← (w.register_files path).1, ← hconfig]
  unfold load
  dsimp only
  generalize parse (w.register path).1 (w.register path).2.loaded text = output
  exact ⟨_, rfl, rfl, rfl⟩

theorem filed_empty (config : SessionConfig) : (empty config).Filed where
  stored h := absurd h List.not_mem_nil
  normal h := by simp [empty] at h
  found h := by simp [empty] at h
  imports h := by simp [empty] at h

theorem Filed.load (h : w.Filed) {path : String}
    (hpath : Path.normalize path = path) (text : String) : (w.load path text).2.Filed := by
  obtain ⟨new, hfiles, hnew, himports⟩ := w.exists_source_of_load path text
  have hconfig := w.load_config path text
  exact
    { stored := by
        intro file hfile
        rw [hfiles, Std.HashMap.mem_insert]
        rcases mem_order_register hfile with rfl | hold
        · exact .inl (beq_self_eq_true _)
        · exact .inr (h.stored hold)
      normal := by
        intro p file hp
        rcases cases_of_register hp with ⟨rfl, -⟩ | hold
        · exact hpath
        · exact h.normal hold
      found := by
        intro file source hf
        rw [hfiles] at hf
        rcases cases_of_insert hf with ⟨rfl, rfl⟩ | ⟨-, hold⟩
        · rw [hnew]
          exact w.register_byPath path
        · exact register_byPath_of_some (h.found hold)
      imports := by
        intro file source hf
        rw [hfiles] at hf
        rw [hconfig]
        rcases cases_of_insert hf with ⟨-, rfl⟩ | ⟨-, hold⟩
        · rw [hnew]
          exact himports
        · exact h.imports hold }

/-- A removal that is not refused takes the number of the path out of all three tables. -/
theorem exists_of_remove_ok {path : String} (hw : w.remove path = .ok w') :
    ∃ file, w.byPath[Path.normalize path]? = some file ∧
      w' = { w with
        byPath := w.byPath.erase (Path.normalize path)
        files := w.files.erase file
        order := w.order.filter (· != file) } := by
  unfold remove at hw
  dsimp only at hw
  split at hw
  · rename_i file hfile
    cases hw
    exact ⟨file, hfile, rfl⟩
  · cases hw

theorem Filed.remove (h : w.Filed) {path : String} (hw : w.remove path = .ok w') : w'.Filed := by
  obtain ⟨file, hfile, rfl⟩ := exists_of_remove_ok hw
  exact
    { stored := by
        intro f hf
        obtain ⟨hf, hne⟩ := List.mem_filter.mp hf
        rw [Std.HashMap.mem_erase]
        exact ⟨beq_eq_false_iff_ne.mpr (bne_iff_ne.mp hne).symm, h.stored hf⟩
      normal := fun hp => h.normal (of_erase hp).2
      found := by
        intro f source hf
        obtain ⟨hne, hf⟩ := of_erase hf
        have hp := h.found hf
        rw [Std.HashMap.getElem?_erase, if_neg]
        · exact hp
        · intro heq
          rw [← beq_iff_eq.mp heq, hfile] at hp
          exact hne (Option.some.inj hp).symm
      imports := fun hf => h.imports (of_erase hf).2 }

theorem filed_ofConfig (config : SessionConfig) : (ofConfig config).Filed := by
  have h := (filed_empty config).load Path.normalize_stubs Stubs.source
  unfold ofConfig
  dsimp only
  split
  · exact { h with }
  · exact filed_empty config

theorem nextFile_ofConfig_le (config : SessionConfig) : (ofConfig config).nextFile ≤ 1 := by
  unfold ofConfig
  dsimp only
  split
  · exact (empty config).nextFile_register_le Stubs.path
  · exact Nat.zero_le _

theorem Sound.consistent (h : w.Sound) (hfiled : w.Filed) : w.Consistent := by
  have stored : ∀ file, file ∈ w.order ↔ file ∈ w.files := by
    refine fun file => ⟨hfiled.stored, fun hfile => ?_⟩
    obtain ⟨source, hf⟩ :=
      Option.isSome_iff_exists.mp (Std.HashMap.mem_iff_isSome_getElem?.mp hfile)
    exact h.listed hf
  exact
    { nodup := h.nodup
      stored := stored
      found := by
        refine fun file => ⟨fun hfile => ?_, fun ⟨path, hpath⟩ => h.byPath hpath⟩
        have hmem := (stored file).mp hfile
        obtain ⟨source, hf⟩ :=
          Option.isSome_iff_exists.mp (Std.HashMap.mem_iff_isSome_getElem?.mp hmem)
        exact ⟨source.path, hfiled.found hf⟩
      path_unique := fun _ _ _ => h.path_unique
      path := fun _ _ hf => ⟨hfiled.normal (hfiled.found hf), hfiled.found hf⟩
      lt_next := h.lt_next
      index := fun _ _ => h.index
      imports := fun _ _ => hfiled.imports }

/-! ### Numbers are not given again -/

namespace Follows

theorem refl (w : Workspace) : w.Follows w := ⟨le_rfl, fun _ h => h⟩

theorem trans {w'' : Workspace} (h : w.Follows w') (h' : w'.Follows w'') : w.Follows w'' :=
  ⟨h.nextFile_le.trans h'.nextFile_le,
    fun hfile hp => h.kept hfile (h'.kept (Nat.lt_of_lt_of_le hfile h.nextFile_le) hp)⟩

theorem register (w : Workspace) (path : String) : w.Follows (w.register path).2 := by
  obtain ⟨-, hw⟩ | ⟨-, hfile, -, -, hnext⟩ := w.register_cases path
  · rw [hw]
    exact refl w
  · refine ⟨hnext ▸ Nat.le_succ _, fun {p file} hlt hp => ?_⟩
    rcases cases_of_register hp with ⟨-, rfl⟩ | hold
    · rw [hfile] at hlt
      exact absurd hlt (Nat.lt_irrefl _)
    · exact hold

theorem load (w : Workspace) (path text : String) : w.Follows (w.load path text).2 :=
  ⟨(register w path).nextFile_le, (register w path).kept⟩

theorem remove {path : String} (hw : w.remove path = .ok w') : w.Follows w' := by
  obtain ⟨file, -, rfl⟩ := exists_of_remove_ok hw
  exact ⟨le_rfl, fun _ hp => (of_erase hp).2⟩

end Follows

end Workspace

namespace Session

variable {s : Session}

theorem Reachable.filed (h : s.Reachable) : s.workspace.Filed := by
  induction h with
  | start config => exact Workspace.filed_ofConfig config
  | replace h path text ih => exact ih.load (Path.normalize_normalize path) text
  | remove h hs ih =>
      obtain ⟨w, hw, rfl⟩ := exists_of_remove hs
      exact ih.remove hw
  | clear h ih => exact ih
  | ask h request ih => exact (request.after_workspace _).symm ▸ ih

theorem Change.follows (c : Change) (s : Session) : s.workspace.Follows (c.run s).2.workspace := by
  cases c with
  | replace path text => exact Workspace.Follows.load _ _ _
  | remove path =>
      cases hs : s.remove path with
      | ok s' =>
          obtain ⟨w, hw, rfl⟩ := exists_of_remove hs
          simp only [Change.run, hs]
          exact .remove hw
      | error reason =>
          simp only [Change.run, hs]
          exact .refl _

theorem Step.follows (step : Step) (s : Session) :
    s.workspace.Follows (step.run s).2.workspace := by
  cases step with
  | change c => exact c.follows s
  | ask request =>
      change s.workspace.Follows (request.after s).workspace
      rw [request.after_workspace]
      exact .refl _
  | clear => exact .refl _

/-- Each change gives at most one number. -/
theorem Change.nextFile_le (c : Change) (s : Session) :
    (c.run s).2.workspace.nextFile ≤ s.workspace.nextFile + 1 := by
  cases c with
  | replace path text => exact s.workspace.nextFile_register_le (Path.normalize path)
  | remove path =>
      cases hs : s.remove path with
      | ok s' =>
          obtain ⟨w, hw, rfl⟩ := exists_of_remove hs
          obtain ⟨file, -, rfl⟩ := Workspace.exists_of_remove_ok hw
          simp only [Change.run, hs]
          exact Nat.le_succ _
      | error reason =>
          simp only [Change.run, hs]
          exact Nat.le_succ _

theorem nextFile_afterSteps_le (s : Session) (steps : List Step) :
    (s.afterSteps steps).workspace.nextFile ≤ s.workspace.nextFile + (changes steps).length := by
  induction steps generalizing s with
  | nil => exact Nat.le_refl _
  | cons step steps ih =>
      refine (ih _).trans ?_
      cases step with
      | change c =>
          have hlength : (changes (.change c :: steps)).length = 1 + (changes steps).length :=
            Nat.add_comm _ _
          rw [hlength, ← Nat.add_assoc]
          exact Nat.add_le_add_right (c.nextFile_le s) _
      | ask request =>
          change (request.after s).workspace.nextFile + _ ≤ _
          rw [request.after_workspace]
          exact Nat.le_refl _
      | clear => exact Nat.le_refl _

theorem follows_afterSteps (s : Session) (steps : List Step) :
    s.workspace.Follows (s.afterSteps steps).workspace := by
  induction steps generalizing s with
  | nil => exact .refl _
  | cons step steps ih => exact (step.follows s).trans (ih _)

/-- After any steps, refused removals among them, the registry is consistent. No more numbers have
been given than there were changes, apart from the one of the builtin types. Whatever steps come
later, a number that stands for a path stands for no other path then, and a number that has been
taken from its path is not given again. -/
theorem registry_consistent (config : SessionConfig) (steps : List Step) :
    let s := (ofConfig config).afterSteps steps
    s.workspace.Consistent ∧ s.workspace.nextFile ≤ (changes steps).length + 1 ∧
      ∀ later : List Step, s.workspace.Follows (s.afterSteps later).workspace ∧
        ∀ (path path' : String) (file : FileId), s.workspace.byPath[path]? = some file →
          (s.afterSteps later).workspace.byPath[path']? = some file → path = path' := by
  intro s
  have hreachable : s.Reachable := (Reachable.start config).afterSteps steps
  have hconsistent := hreachable.sound.consistent hreachable.filed
  have hnext := nextFile_afterSteps_le (ofConfig config) steps
  have hfirst : (ofConfig config).workspace.nextFile ≤ 1 := Workspace.nextFile_ofConfig_le config
  have hle : s.workspace.nextFile ≤ (changes steps).length + 1 :=
    hnext.trans ((Nat.add_le_add_right hfirst _).trans_eq (Nat.add_comm _ _))
  refine ⟨hconsistent, hle, fun later => ?_⟩
  have hfollows := s.follows_afterSteps later
  refine ⟨hfollows, fun path path' file hpath hpath' => ?_⟩
  have hlisted : file ∈ s.workspace.order := (hconsistent.found file).mpr ⟨path, hpath⟩
  have hbefore := hfollows.kept (hconsistent.lt_next file hlisted) hpath'
  exact hconsistent.path_unique path path' file hpath hbefore

/-- A file is read, a removal is refused, and the file is read again under another form of its
path: it is still file 0. -/
theorem registry_consistent_rereading :
    let s := (ofConfig { loadStubs := false }).afterSteps
      [.change (.replace "/./main.tolk" "const a=1;"), .change (.remove "/none.tolk")]
    let s' := s.afterSteps [.change (.replace "/lib/../main.tolk" "const b=1;")]
    s.workspace.byPath["/main.tolk"]? = some 0 ∧ s'.workspace.byPath["/main.tolk"]? = some 0 ∧
      s.workspace.Consistent ∧ s.workspace.nextFile ≤ 3 ∧ s.workspace.Follows s'.workspace ∧
      "/main.tolk" = "/main.tolk" := by
  intro s s'
  have hmain : Path.normalize "/./main.tolk" = "/main.tolk" := by decide +kernel
  have hagain : Path.normalize "/lib/../main.tolk" = "/main.tolk" := by decide +kernel
  have hnone : Path.normalize "/none.tolk" = "/none.tolk" := by decide +kernel
  let first := ((ofConfig { loadStubs := false }).replace "/./main.tolk" "const a=1;").2
  have hempty : (Workspace.empty { loadStubs := false }).register "/main.tolk" =
      (0, ⟨{ loadStubs := false }, ∅, [0], (∅ : Std.HashMap String FileId).insert "/main.tolk" 0,
        none, 1, 0⟩) := by
    simp [Workspace.register, Workspace.empty]
  have hfirst : first.workspace.byPath = (∅ : Std.HashMap String FileId).insert "/main.tolk" 0 := by
    change ((Workspace.empty _).register (Path.normalize "/./main.tolk")).2.byPath = _
    rw [hmain, hempty]
  have hrefused : (Change.remove "/none.tolk").run first =
      (.refused (.unknownPath (Path.normalize "/none.tolk")), first) := by
    refine ((Reachable.start { loadStubs := false }).replace _ _).answers_after_change.2 _ ?_
    change first.workspace.byPath[Path.normalize "/none.tolk"]? = none
    rw [hnone, hfirst, Std.HashMap.getElem?_insert, if_neg (by decide)]
    exact Std.HashMap.getElem?_empty
  have hs : s = first := congrArg Prod.snd hrefused
  have hpath : s.workspace.byPath["/main.tolk"]? = some 0 := by
    rw [hs, hfirst]
    exact Std.HashMap.getElem?_insert_self
  have hpath' : s'.workspace.byPath["/main.tolk"]? = some 0 := by
    change (s.workspace.register (Path.normalize "/lib/../main.tolk")).2.byPath["/main.tolk"]? = _
    exact Workspace.register_byPath_of_some hpath
  obtain ⟨hconsistent, hnext, hlater⟩ := registry_consistent { loadStubs := false }
    [.change (.replace "/./main.tolk" "const a=1;"), .change (.remove "/none.tolk")]
  obtain ⟨hfollows, hunique⟩ := hlater [.change (.replace "/lib/../main.tolk" "const b=1;")]
  exact ⟨hpath, hpath', hconsistent, hnext, hfollows, hunique _ _ _ hpath hpath'⟩

end Session

/-! ### Imports find files -/

namespace Workspace

variable {w : Workspace}

/-- The imported files are those that the imports of the file lead to. -/
theorem mem_importedFiles_iff {file g : FileId} {source : SourceFile}
    (hf : w.files[file]? = some source) :
    g ∈ w.importedFiles file ↔ ∃ q ∈ source.imports, w.byPath[q]? = some g := by
  rw [importedFiles, hf]
  exact List.mem_filterMap

/-- A file is found under the normal form of the path that it was read under. -/
theorem byPath_replace (w : Workspace) (path text : String) :
    (w.replace path text).2.byPath[Path.normalize path]? = some (w.replace path text).1 :=
  w.register_byPath (Path.normalize path)

/-- Paths have one key. A normal form is its own normal form, and a directory may be put into normal
form before a path is taken below it. An import leads to a normal path, so it finds the file that is
read under any path with this normal form. -/
theorem normal_keys :
    (∀ path : String, Path.normalize (Path.normalize path) = Path.normalize path) ∧
      (∀ dir relative : List Char, Path.isAbsolute relative = false →
        Path.normal (Path.join (Path.normal dir) relative) =
          Path.normal (Path.join dir relative)) ∧
      ∀ (importer directive q : String) (root : Option String),
        Path.resolveImport importer directive root = some q →
          Path.normalize q = q ∧
            ∀ (w : Workspace) (path text : String), Path.normalize path = Path.normalize q →
              (w.replace path text).2.byPath[q]? = some (w.replace path text).1 ∧
                ∀ (file : FileId) (source : SourceFile),
                  (w.replace path text).2.files[file]? = some source → q ∈ source.imports →
                    (w.replace path text).1 ∈ (w.replace path text).2.importedFiles file := by
  refine ⟨Path.normalize_normalize, fun dir relative h => Path.normal_join h, ?_⟩
  intro importer directive q root hq
  have hnormal := Path.normalize_of_resolveImport hq
  refine ⟨hnormal, fun w path text hpath => ?_⟩
  have hfound := w.byPath_replace path text
  rw [hpath, hnormal] at hfound
  exact ⟨hfound, fun file source hf himport =>
    (mem_importedFiles_iff hf).mpr ⟨q, himport, hfound⟩⟩

/-- A file that imports itself under another spelling of its path. -/
theorem normal_keys_self :
    let q := "/a/main.tolk"
    let w := (empty { loadStubs := false }).replace "/a//./main.tolk" "import \"../a/main\""
    Path.isAbsolute "../a/main".toList = false ∧
      Path.normal (Path.join (Path.normal "/a/b/..".toList) "../a/main".toList) =
        Path.normal (Path.join "/a/b/..".toList "../a/main".toList) ∧
      Path.resolveImport q "../a/main" none = some q ∧ Path.normalize q = q ∧
      Path.normalize "/a//./main.tolk" = Path.normalize q ∧ w.2.byPath[q]? = some w.1 ∧
      ∃ source, w.2.files[w.1]? = some source ∧ q ∈ source.imports ∧
        w.1 ∈ w.2.importedFiles w.1 := by
  intro q w
  obtain ⟨-, hjoin, hleads⟩ := normal_keys
  have hrelative : Path.isAbsolute "../a/main".toList = false := by decide
  have hresolve : Path.resolveImport q "../a/main" none = some q := by decide +kernel
  have hsame : Path.normalize "/a//./main.tolk" = Path.normalize q := by decide +kernel
  obtain ⟨hnormal, hfinds⟩ := hleads _ _ _ _ hresolve
  obtain ⟨hfound, himported⟩ := hfinds (empty { loadStubs := false }) "/a//./main.tolk"
    "import \"../a/main\"" hsame
  have hpath : Path.normalize "/a//./main.tolk" = q := hsame.trans hnormal
  obtain ⟨source, hfiles, -, himports⟩ := (empty { loadStubs := false }).exists_source_of_load
    (Path.normalize "/a//./main.tolk") "import \"../a/main\""
  have hfile : w.1 = 0 := by simp [w, replace, load, register, empty]
  have hsource : w.2.files[w.1]? = some source := by
    change (load _ _ _).2.files[_]? = _
    rw [hfiles]
    exact Std.HashMap.getElem?_insert_self
  have htree : some source.tree = some (parse w.1 0 "import \"../a/main\"").tree :=
    (congrArg (Option.map SourceFile.tree) hsource).symm.trans (tree?_load _ _ _)
  have himport : q ∈ source.imports := by
    rw [himports, Option.some_inj.mp htree, hpath, hfile]
    decide +kernel
  exact ⟨hrelative, hjoin _ _ hrelative, hresolve, hnormal, hsame, hfound, source, hsource, himport,
    himported _ _ hsource himport⟩

end Workspace

end TolkAnalysis
