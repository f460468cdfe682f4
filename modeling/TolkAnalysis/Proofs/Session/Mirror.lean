import TolkAnalysis.Proofs.Decl.Copy
import TolkAnalysis.Proofs.Resolution.Name
import TolkAnalysis.Proofs.Session.Registry

/-!
# Workspaces with the same texts

Two workspaces may hold the same texts under the same paths and still differ: the files have other
numbers if they were registered in another order. `Workspace.Mirrors` says that a renumbering of
the files leads from one to the other. The renumbering carries over which files a file can see and
in which order (`Mirrors.searchFiles`), since that goes by the import directives alone, and so what
a name refers to (`Mirrors.nameAnswer`).
-/

namespace TolkAnalysis

namespace Workspace

variable {w w' : Workspace}

/-- The text of the file at a normal path. -/
def textAt? (w : Workspace) (path : String) : Option String :=
  (w.byPath[path]?.bind w.tree?).map (·.source)

/-- The file of the builtin types is still the one that was read first, if there is one. -/
structure KeepsStubs (w : Workspace) : Prop where
  found : w.config.loadStubs = true →
    ∃ file, w.stubs = some file ∧ w.byPath[Stubs.path]? = some file
  absent : w.config.loadStubs = false → w.stubs = none

/-- The second workspace holds the same texts under the same paths, and `σ` leads from the number
of a file to the number that it has there. The registries of both are in order. -/
structure Mirrors (w w' : Workspace) (σ : FileId → FileId) : Prop where
  sound : w.Sound
  sound' : w'.Sound
  consistent : w.Consistent
  consistent' : w'.Consistent
  keepsStubs : w.KeepsStubs
  config : w'.config = w.config
  stubs : w'.stubs = w.stubs.map σ
  byPath : ∀ path : String, w'.byPath[path]? = w.byPath[path]?.map σ
  copy : ∀ {file : FileId} {source : SourceFile}, w.files[file]? = some source →
    ∃ source' : SourceFile, w'.files[σ file]? = some source' ∧
      source.tree.Copy source'.tree ∧ source'.path = source.path

/-! ### Files by path -/

theorem Consistent.exists_source (h : w.Consistent) {path : String} {file : FileId}
    (hp : w.byPath[path]? = some file) :
    ∃ source : SourceFile, w.files[file]? = some source ∧ source.path = path := by
  have hmem := (h.stored file).mp ((h.found file).mpr ⟨path, hp⟩)
  obtain ⟨source, hf⟩ := Option.isSome_iff_exists.mp (Std.HashMap.mem_iff_isSome_getElem?.mp hmem)
  exact ⟨source, hf, h.path_unique _ _ _ (h.path file source hf).2 hp⟩

theorem Consistent.mem_order (h : w.Consistent) {file : FileId} {source : SourceFile}
    (hf : w.files[file]? = some source) : file ∈ w.order :=
  (h.found file).mpr ⟨source.path, (h.path file source hf).2⟩

theorem Consistent.exists_source_of_mem (h : w.Consistent) {file : FileId}
    (hfile : file ∈ w.order) : ∃ source : SourceFile, w.files[file]? = some source := by
  obtain ⟨path, hp⟩ := (h.found file).mp hfile
  obtain ⟨source, hf, -⟩ := h.exists_source hp
  exact ⟨source, hf⟩

theorem textAt?_of_files {path : String} {file : FileId} {source : SourceFile}
    (hp : w.byPath[path]? = some file) (hf : w.files[file]? = some source) :
    w.textAt? path = some source.tree.source := by
  rw [textAt?, hp, Option.bind_some, tree?, hf]
  rfl

/-- The number in the second workspace of a file of the first one. -/
def numberIn (w w' : Workspace) (file : FileId) : FileId :=
  (w.files[file]?.bind fun source => w'.byPath[source.path]?).getD 0

theorem Consistent.numberIn_eq (h : w.Consistent) {path : String} {file file' : FileId}
    (hp : w.byPath[path]? = some file) (hp' : w'.byPath[path]? = some file') :
    w.numberIn w' file = file' := by
  obtain ⟨source, hf, rfl⟩ := h.exists_source hp
  rw [numberIn, hf, Option.bind_some, hp']
  rfl

/-- Trees that were read from one text are copies of each other. -/
theorem Sound.copy (hw : w.Sound) (hw' : w'.Sound) {file file' : FileId}
    {source source' : SourceFile} (hf : w.files[file]? = some source)
    (hf' : w'.files[file']? = some source') (htext : source.tree.source = source'.tree.source) :
    source.tree.Copy source'.tree := by
  obtain ⟨stamp, text, htree⟩ := hw.parsed hf
  obtain ⟨stamp', text', htree'⟩ := hw'.parsed hf'
  rw [htree, htree'] at htext ⊢
  obtain rfl : text = text' := htext
  exact Tree.copy_parse file file' stamp stamp' text

/-- A path holds a text if it is registered. -/
theorem Consistent.isSome_textAt? (h : w.Consistent) (path : String) :
    (w.textAt? path).isSome = w.byPath[path]?.isSome := by
  cases hp : w.byPath[path]? with
  | none => rw [textAt?, hp]; rfl
  | some file =>
      obtain ⟨source, hf, -⟩ := h.exists_source hp
      rw [textAt?_of_files hp hf]
      rfl

/-- Where the same texts are held, a path has the number in the second workspace that `numberIn`
gives for its number in the first one. -/
theorem Consistent.byPath_eq_map_numberIn (h : w.Consistent) (h' : w'.Consistent)
    (hsame : ∀ path, w.textAt? path = w'.textAt? path) (path : String) :
    w'.byPath[path]? = w.byPath[path]?.map (w.numberIn w') := by
  have hsome : w'.byPath[path]?.isSome = w.byPath[path]?.isSome := by
    rw [← h'.isSome_textAt?, ← h.isSome_textAt?, hsame]
  cases hp : w.byPath[path]? with
  | none =>
      rw [hp, Option.isSome_none, Option.isSome_eq_false_iff] at hsome
      exact Option.isNone_iff_eq_none.mp hsome
  | some file =>
      rw [hp] at hsome
      obtain ⟨file', hp'⟩ := Option.isSome_iff_exists.mp hsome
      rw [hp']
      exact congrArg some (h.numberIn_eq hp hp').symm

/-- Workspaces with the same settings and the same texts under the same paths mirror each other. -/
theorem Sound.mirrors (hw : w.Sound) (hw' : w'.Sound) (h : w.Consistent) (h' : w'.Consistent)
    (hconfig : w'.config = w.config) (hstubs : w.KeepsStubs) (hstubs' : w'.KeepsStubs)
    (hsame : ∀ path, w.textAt? path = w'.textAt? path) :
    w.Mirrors w' (w.numberIn w') := by
  have byPath := h.byPath_eq_map_numberIn h' hsame
  exact
    { sound := hw
      sound' := hw'
      consistent := h
      consistent' := h'
      keepsStubs := hstubs
      config := hconfig
      stubs := by
        cases hload : w.config.loadStubs with
        | true =>
            obtain ⟨file, hfile, hp⟩ := hstubs.found hload
            obtain ⟨file', hfile', hp'⟩ := hstubs'.found (hconfig ▸ hload)
            rw [hfile, hfile', ← hp, ← hp']
            exact byPath Stubs.path
        | false =>
            rw [hstubs.absent hload, hstubs'.absent (hconfig ▸ hload)]
            rfl
      byPath := byPath
      copy := by
        intro file source hf
        have hp := (h.path file source hf).2
        have hp' : w'.byPath[source.path]? = some (w.numberIn w' file) := by
          rw [byPath, hp]
          rfl
        obtain ⟨source', hf', hpath⟩ := h'.exists_source hp'
        refine ⟨source', hf', hw.copy hw' hf hf' ?_, hpath⟩
        have htext := hsame source.path
        rw [textAt?_of_files hp hf, textAt?_of_files hp' hf'] at htext
        exact Option.some.inj htext }

/-! ### Files that a file can see -/

section

variable {σ : FileId → FileId}

/-- A renumbering of files keeps which files are visited and in which order. -/
theorem visit_map {known : List FileId} {imports imports' : FileId → List FileId}
    (hinjective : ∀ a ∈ known, ∀ b ∈ known, σ a = σ b → a = b)
    (himports : ∀ a ∈ known, imports' (σ a) = (imports a).map σ ∧ ∀ b ∈ imports a, b ∈ known)
    {unseen unseen' queue : List FileId} (hqueue : ∀ a ∈ queue, a ∈ known)
    (hunseen : ∀ a ∈ known, σ a ∈ unseen' ↔ a ∈ unseen) (hnodup : unseen.Nodup)
    (hnodup' : unseen'.Nodup) :
    visit imports' unseen' (queue.map σ) = (visit imports unseen queue).map σ := by
  induction unseen, queue using visit.induct imports generalizing unseen' with
  | case1 unseen =>
      rw [visit, List.map_nil, visit]
  | case2 unseen file queue hfile ih =>
      rw [List.forall_mem_cons] at hqueue
      obtain ⟨himage, hknown⟩ := himports file hqueue.1
      rw [List.map_cons, visit, visit, if_pos hfile, if_pos ((hunseen file hqueue.1).mpr hfile),
        himage, ← List.map_append, List.map_cons]
      refine congrArg _ (ih ?_ ?_ (hnodup.erase _) (hnodup'.erase _))
      · intro a ha
        rcases List.mem_append.mp ha with ha | ha
        · exact hqueue.2 a ha
        · exact hknown a ha
      · intro a ha
        rw [hnodup'.mem_erase_iff, hnodup.mem_erase_iff, hunseen a ha]
        exact and_congr_left fun _ => not_congr ⟨hinjective a ha file hqueue.1, congrArg σ⟩
  | case3 unseen file queue hfile ih =>
      rw [List.forall_mem_cons] at hqueue
      rw [List.map_cons, visit, visit, if_neg hfile,
        if_neg (mt (hunseen file hqueue.1).mp hfile)]
      exact ih hqueue.2 hunseen hnodup hnodup'

/-- A renumbering of files keeps which files are new. -/
theorem newOnes_map {known : List FileId}
    (hinjective : ∀ a ∈ known, ∀ b ∈ known, σ a = σ b → a = b) {seen files : List FileId}
    (hfiles : ∀ a ∈ files, a ∈ known) (hseen : ∀ a ∈ seen, a ∈ known) :
    newOnes (seen.map σ) (files.map σ) = (newOnes seen files).map σ := by
  induction files generalizing seen with
  | nil => rfl
  | cons file files ih =>
      rw [List.forall_mem_cons] at hfiles
      have hmem : σ file ∈ seen.map σ ↔ file ∈ seen := by
        refine ⟨fun h => ?_, List.mem_map_of_mem⟩
        obtain ⟨a, ha, heq⟩ := List.mem_map.mp h
        exact hinjective a (hseen a ha) file hfiles.1 heq ▸ ha
      rw [List.map_cons, newOnes, newOnes]
      by_cases hfile : file ∈ seen
      · rw [if_pos hfile, if_pos (hmem.mpr hfile)]
        exact ih hfiles.2 hseen
      · rw [if_neg hfile, if_neg (mt hmem.mp hfile), List.map_cons, ← List.map_cons]
        exact congrArg _ (ih hfiles.2 (List.forall_mem_cons.mpr ⟨hfiles.1, hseen⟩))

theorem mem_of_mem_visit {imports : FileId → List FileId} {unseen queue : List FileId}
    {file : FileId} (h : file ∈ visit imports unseen queue) : file ∈ unseen := by
  fun_induction visit imports unseen queue with
  | case1 unseen => exact absurd h List.not_mem_nil
  | case2 unseen first queue hfirst ih =>
      rcases List.mem_cons.mp h with rfl | h
      · exact hfirst
      · exact List.mem_of_mem_erase (ih h)
  | case3 unseen first queue hfirst ih => exact ih h

theorem mem_of_mem_newOnes {seen files : List FileId} {file : FileId}
    (h : file ∈ newOnes seen files) : file ∈ files := by
  fun_induction newOnes seen files with
  | case1 seen => exact h
  | case2 seen first files hfirst ih => exact List.mem_cons_of_mem _ (ih h)
  | case3 seen first files hfirst ih =>
      rcases List.mem_cons.mp h with rfl | h
      · exact List.mem_cons_self
      · exact List.mem_cons_of_mem _ (ih h)

theorem Consistent.mem_order_of_mem_stubFiles (h : w.Consistent) (hstubs : w.KeepsStubs)
    {file : FileId} (hfile : file ∈ w.stubFiles) : file ∈ w.order := by
  rcases List.mem_append.mp hfile with hfile | hfile
  · rw [Option.mem_toList] at hfile
    cases hload : w.config.loadStubs with
    | true =>
        obtain ⟨stub, hstub, hp⟩ := hstubs.found hload
        rw [hstub] at hfile
        cases hfile
        exact (h.found file).mpr ⟨_, hp⟩
    | false =>
        rw [hstubs.absent hload] at hfile
        cases hfile
  · obtain ⟨root, -, hfile⟩ := Option.bind_eq_some_iff.mp (Option.mem_toList.mp hfile)
    exact (h.found file).mpr ⟨_, hfile⟩

/-- The import directives of a copy lead to the same paths. -/
theorem importsOf_copy {t t' : Tree} (h : t.Copy t') (config : SessionConfig) (path : String) :
    importsOf config path t' = importsOf config path t := by
  have hpaths : (t'.rootNode.childrenOfKind .importDirective).filterMap (·.child? .path) =
      ((t.rootNode.childrenOfKind .importDirective).filterMap (·.child? .path)).map
        (Node.onto t') := by
    rw [← Node.onto_rootNode h, Node.childrenOfKind_onto (n := t.rootNode) h, List.filterMap_map,
      List.map_filterMap]
    refine List.filterMap_congr fun n hn => ?_
    exact n.child?_onto (Node.copy_children (n := t.rootNode) h n (List.mem_filter.mp hn).1) .path
  rw [importsOf, hpaths, List.filterMap_map, importsOf]
  refine List.filterMap_congr fun n hn => ?_
  obtain ⟨m, hm, hn⟩ := List.mem_filterMap.mp hn
  have hm := Node.copy_children (n := t.rootNode) h m (List.mem_filter.mp hm).1
  rw [Function.comp_apply, n.text_onto (m.copy_child? hm hn)]

namespace Mirrors

theorem injective (h : w.Mirrors w' σ) :
    ∀ a ∈ w.order, ∀ b ∈ w.order, σ a = σ b → a = b := by
  intro a ha b hb heq
  have hw := h.consistent
  obtain ⟨source, hf⟩ := hw.exists_source_of_mem ha
  obtain ⟨sourceB, hfB⟩ := hw.exists_source_of_mem hb
  obtain ⟨source', hf', -, hpath⟩ := h.copy hf
  obtain ⟨sourceB', hfB', -, hpathB⟩ := h.copy hfB
  rw [← heq, hf'] at hfB'
  cases hfB'
  have hp := (hw.path a source hf).2
  rw [hpath.symm.trans hpathB, (hw.path b sourceB hfB).2] at hp
  exact (Option.some.inj hp).symm

theorem mem_order (h : w.Mirrors w' σ) {file : FileId} (hfile : file ∈ w.order) :
    σ file ∈ w'.order := by
  obtain ⟨source, hf⟩ := h.consistent.exists_source_of_mem hfile
  obtain ⟨source', hf', -⟩ := h.copy hf
  exact h.consistent'.mem_order hf'

theorem importedFiles (h : w.Mirrors w' σ) {file : FileId} (hfile : file ∈ w.order) :
    w'.importedFiles (σ file) = (w.importedFiles file).map σ ∧
      ∀ b ∈ w.importedFiles file, b ∈ w.order := by
  obtain ⟨source, hf⟩ := h.consistent.exists_source_of_mem hfile
  obtain ⟨source', hf', hcopy, hpath⟩ := h.copy hf
  have himports : source'.imports = source.imports := by
    rw [h.consistent'.imports _ _ hf', h.consistent.imports _ _ hf, h.config, hpath,
      importsOf_copy hcopy]
  unfold Workspace.importedFiles
  rw [hf, hf']
  dsimp only
  rw [himports]
  refine ⟨?_, fun b hb => ?_⟩
  · rw [List.map_filterMap]
    exact List.filterMap_congr fun path _ => h.byPath path
  · obtain ⟨path, -, hb⟩ := List.mem_filterMap.mp hb
    exact (h.consistent.found b).mpr ⟨path, hb⟩

theorem stubFiles (h : w.Mirrors w' σ) : w'.stubFiles = w.stubFiles.map σ := by
  unfold Workspace.stubFiles
  rw [h.config, h.stubs, List.map_append, Option.toList_map]
  refine congrArg _ ?_
  cases w.config.stdlibRoot with
  | none => rfl
  | some root =>
      dsimp only [Option.bind_some]
      rw [h.byPath, Option.toList_map]

/-- A file can see the same files, in the same order. -/
theorem searchFiles (h : w.Mirrors w' σ) {file : FileId} (hfile : file ∈ w.order) :
    w'.searchFiles (σ file) = (w.searchFiles file).map σ ∧
      ∀ b ∈ w.searchFiles file, b ∈ w.order := by
  have hinjective := h.injective
  obtain ⟨himports, hknown⟩ := h.importedFiles hfile
  have hunseen : ∀ a ∈ w.order,
      σ a ∈ w'.order.filter (· != σ file) ↔ a ∈ w.order.filter (· != file) := by
    intro a ha
    rw [List.mem_filter, List.mem_filter, bne_iff_ne, bne_iff_ne]
    refine and_congr (iff_of_true (h.mem_order ha) ha) (not_congr ?_)
    exact ⟨hinjective a ha file hfile, congrArg σ⟩
  have hvisit := visit_map hinjective (fun a ha => h.importedFiles ha) hknown hunseen
    (h.consistent.nodup.filter _) (h.consistent'.nodup.filter _)
  have hreached : ∀ a ∈ file :: visit w.importedFiles (w.order.filter (· != file))
      (w.importedFiles file), a ∈ w.order :=
    List.forall_mem_cons.mpr ⟨hfile, fun a ha => (List.mem_filter.mp (mem_of_mem_visit ha)).1⟩
  have hstub : ∀ a ∈ w.stubFiles, a ∈ w.order := fun a =>
    h.consistent.mem_order_of_mem_stubFiles h.keepsStubs
  unfold Workspace.searchFiles
  dsimp only
  constructor
  · rw [himports, hvisit, h.stubFiles, ← List.map_cons, newOnes_map hinjective hstub hreached,
      List.map_append]
  · intro a ha
    rcases List.mem_append.mp ha with ha | ha
    · exact hreached a ha
    · exact hstub a (mem_of_mem_newOnes ha)

end Mirrors

end

/-! ### What a name refers to -/

theorem mem_children_of_mem_declared {t : Tree} {category : Category} {d : Decl}
    (h : d ∈ t.declared category) : d.node ∈ t.rootNode.children := by
  rw [Tree.declared, ← FileIndex.elements_ofTree] at h
  exact (FileIndex.exists_of_mem_elements h).1

/-- The declaration that stands at the same place in another workspace, where `σ` leads to the
numbers of the files. -/
def counterpart (w' : Workspace) (σ : FileId → FileId) (d : Decl) : Decl :=
  match w'.tree? (σ d.file) with
  | some t' => d.onto t'
  | none => d

theorem counterpart_eq {σ : FileId → FileId} {d : Decl} {source' : SourceFile}
    (hf' : w'.files[σ d.file]? = some source') : w'.counterpart σ d = d.onto source'.tree := by
  rw [counterpart, tree?, hf']
  rfl

namespace Mirrors

variable {σ : FileId → FileId} {n : Node} {source' : SourceFile}

/-- What is declared at the top of the files that a file can see, and all of it belongs to current
trees. -/
theorem topLevel (h : w.Mirrors w' σ) (categories : List Category) {file : FileId}
    (hfile : file ∈ w.order) :
    w'.topLevel categories (σ file) = (w.topLevel categories file).map (w'.counterpart σ) ∧
      ∀ d ∈ w.topLevel categories file, w.Knows d.node := by
  obtain ⟨hfiles, hknown⟩ := h.searchFiles hfile
  unfold Workspace.topLevel
  rw [hfiles]
  generalize w.searchFiles file = files at hknown
  induction files with
  | nil => exact ⟨rfl, List.forall_mem_nil _⟩
  | cons first files ih =>
      rw [List.forall_mem_cons] at hknown
      obtain ⟨ih, ihknown⟩ := ih hknown.2
      obtain ⟨source, hf⟩ := h.consistent.exists_source_of_mem hknown.1
      obtain ⟨source', hf', hcopy, -⟩ := h.copy hf
      have htree : w.tree? first = some source.tree := congrArg (Option.map _) hf
      have htree' : w'.tree? (σ first) = some source'.tree := congrArg (Option.map _) hf'
      have hnode : ∀ {category : Category} {d : Decl}, d ∈ source.tree.declared category →
          d.node.tree = source.tree :=
        fun hd => Node.tree_of_mem_children (mem_children_of_mem_declared hd)
      rw [List.map_cons, List.filterMap_cons_some htree', List.filterMap_cons_some htree,
        List.flatMap_cons, List.flatMap_cons, ih, List.map_append]
      constructor
      · refine congrArg (· ++ _) ?_
        rw [List.map_flatMap]
        refine List.flatMap_congr fun category _ => ?_
        rw [Tree.declared_onto hcopy]
        refine List.map_congr_left fun d hd => (counterpart_eq ?_).symm
        rwa [Decl.file, Node.file, hnode hd, h.sound.file_eq hf]
      · intro d hd
        rcases List.mem_append.mp hd with hd | hd
        · obtain ⟨category, -, hd⟩ := List.mem_flatMap.mp hd
          exact h.sound.knows hf (hnode hd)
        · exact ihknown d hd

/-- A node of a current tree stands at the same place of a current tree in the other workspace. -/
theorem exists_copy (h : w.Mirrors w' σ) (hn : w.Knows n) : n.file ∈ w.order ∧
    ∃ source' : SourceFile, w'.files[σ n.file]? = some source' ∧ n.tree.Copy source'.tree := by
  obtain ⟨source, hf, htree⟩ := hn
  obtain ⟨source', hf', hcopy, -⟩ := h.copy hf
  exact ⟨h.consistent.mem_order hf, source', hf', htree ▸ hcopy⟩

theorem knows_onto (h : w.Mirrors w' σ) (hf' : w'.files[σ n.file]? = some source') :
    w'.Knows (n.onto source'.tree) := h.sound'.knows hf' (n.tree_onto _)

theorem knows_counterpart (h : w.Mirrors w' σ) {d : Decl} (hd : w.Knows d.node) :
    w'.Knows (w'.counterpart σ d).node := by
  obtain ⟨-, source', hf', -⟩ := h.exists_copy hd
  rw [counterpart_eq hf']
  exact h.knows_onto hf'

/-- Declarations stand at one node in both workspaces or in neither. -/
theorem counterpart_beq (h : w.Mirrors w' σ) {d : Decl} (hd : w.Knows d.node) (hn : w.Knows n)
    (hf' : w'.files[σ n.file]? = some source') :
    ((w'.counterpart σ d).node == n.onto source'.tree) = (d.node == n) := by
  obtain ⟨hdfile, dsource', hdf', hdcopy⟩ := h.exists_copy hd
  obtain ⟨hnfile, source'', hf'', hcopy⟩ := h.exists_copy hn
  rw [hf'] at hf''
  cases hf''
  refine Bool.eq_iff_iff.mpr ⟨fun heq => ?_, fun heq => ?_⟩
  · have hnode := (h.knows_counterpart hd).eq_of_beq (h.knows_onto hf') h.sound' heq
    rw [counterpart_eq hdf'] at hnode
    -- The trees have one number, so the files have, and the nodes stand in one tree.
    have htree : dsource'.tree = source'.tree := by
      rw [← Node.tree_onto dsource'.tree d.node, ← Node.tree_onto source'.tree n]
      exact congrArg Node.tree hnode
    have hfile : d.node.file = n.file := by
      refine h.injective _ hdfile _ hnfile ?_
      rw [← h.sound'.file_eq hf', ← h.sound'.file_eq hdf', htree]
    obtain ⟨source, hf, hsource⟩ := hn
    obtain ⟨dsource, hdf, hdsource⟩ := hd
    rw [hfile, hf] at hdf
    cases hdf
    have hsame : d.node.tree = n.tree := hdsource.symm.trans hsource
    have hnode : d.node.onto source'.tree = n.onto source'.tree := htree ▸ hnode
    rw [Node.onto_injective hcopy hsame hnode]
    exact Node.beq_self n
  · obtain rfl := hd.eq_of_beq hn h.sound heq
    rw [counterpart_eq hf']
    exact Node.beq_self _

end Mirrors

end Workspace

end TolkAnalysis
