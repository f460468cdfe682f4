import TolkAnalysis.Proofs.Decl.Index
import TolkAnalysis.Proofs.Grammar.Nested
import TolkAnalysis.Proofs.Session.Closed

/-!
# Sound workspaces

In a sound workspace every file holds the tree of a text with the index of that
tree, the files are listed once in the order of registration, and the stamps of
the trees keep their nodes apart: `Node.code` numbers the nodes of all current
trees below the number of nodes that were ever read. Registering, reading and
removing files keep a workspace sound.

`Workspace.Knows` holds of the nodes of the current trees, and
`Workspace.Reaches` of those that are reached from a root. Both families are
closed.
-/

namespace TolkAnalysis

/-- A number for a node, which tells it apart from the nodes of all other trees. -/
def Node.code (n : Node) : Nat := n.tree.stamp + n.id

theorem Node.beq_self (n : Node) : (n == n) = true :=
  Bool.and_eq_true_iff.mpr ⟨beq_self_eq_true n.id, beq_self_eq_true n.tree.stamp⟩

/-- The nodes of one tree are numbered before those of the other. -/
def Tree.Before (t u : Tree) : Prop := t.stamp + t.size ≤ u.stamp

namespace Workspace

/-- Every file holds the tree of a text with its index, and the trees are apart. -/
structure Sound (w : Workspace) : Prop where
  parsed : ∀ {file : FileId} {source : SourceFile}, w.files[file]? = some source →
    ∃ stamp text, source.tree = (parse file stamp text).tree
  index : ∀ {file : FileId} {source : SourceFile}, w.files[file]? = some source →
    source.index = FileIndex.ofTree source.tree
  stamp : ∀ {file : FileId} {source : SourceFile}, w.files[file]? = some source →
    source.tree.stamp + source.tree.size ≤ w.loaded
  apart : ∀ {file file' : FileId} {source source' : SourceFile},
    w.files[file]? = some source → w.files[file']? = some source' → file ≠ file' →
    source.tree.Before source'.tree ∨ source'.tree.Before source.tree
  listed : ∀ {file : FileId} {source : SourceFile}, w.files[file]? = some source →
    file ∈ w.order
  nodup : w.order.Nodup
  lt_next : ∀ file ∈ w.order, file < w.nextFile
  byPath : ∀ {path : String} {file : FileId}, w.byPath[path]? = some file → file ∈ w.order
  path_unique : ∀ {path path' : String} {file : FileId}, w.byPath[path]? = some file →
    w.byPath[path']? = some file → path = path'

/-- The node belongs to a current tree. -/
def Knows (w : Workspace) (n : Node) : Prop :=
  ∃ source, w.files[n.file]? = some source ∧ source.tree = n.tree

/-- The node is reached from the root of a current tree. -/
def Reaches (w : Workspace) (n : Node) : Prop :=
  w.Knows n ∧ n ∈ n.tree.rootNode.preorder

/-- Every text of the workspace is shorter than 2^32 bytes. -/
def HasShortTexts (w : Workspace) : Prop :=
  ∀ {file : FileId} {source : SourceFile}, w.files[file]? = some source →
    source.tree.source.utf8ByteSize < 2 ^ 32

/-! ### Changes of files -/

section

variable {κ α : Type} [BEq κ] [Hashable κ] [LawfulBEq κ] [LawfulHashable κ]
  {m : Std.HashMap κ α} {k k' : κ} {a b : α}

/-- After a key has been given a value, a value that is found is that one or was found before. -/
theorem cases_of_insert (h : (m.insert k b)[k']? = some a) :
    k' = k ∧ a = b ∨ k' ≠ k ∧ m[k']? = some a := by
  rw [Std.HashMap.getElem?_insert] at h
  split at h
  · rename_i heq
    cases h
    exact .inl ⟨(beq_iff_eq.mp heq).symm, rfl⟩
  · rename_i hne
    exact .inr ⟨fun heq => hne (beq_iff_eq.mpr heq.symm), h⟩

/-- After a key has been taken away, a value that is found belongs to another key. -/
theorem of_erase (h : (m.erase k)[k']? = some a) : k' ≠ k ∧ m[k']? = some a := by
  rw [Std.HashMap.getElem?_erase] at h
  split at h
  · cases h
  · rename_i hne
    exact ⟨fun heq => hne (beq_iff_eq.mpr heq.symm), h⟩

end

theorem sound_empty (config : SessionConfig) : (empty config).Sound where
  parsed h := by simp [empty] at h
  index h := by simp [empty] at h
  stamp h := by simp [empty] at h
  apart h := by simp [empty] at h
  listed h := by simp [empty] at h
  nodup := List.nodup_nil
  lt_next := by simp [empty]
  byPath h := by simp [empty] at h
  path_unique h := by simp [empty] at h

/-- Registering a path changes no file and lists the path. -/
structure Registers (w w' : Workspace) (file : FileId) : Prop where
  sound : w'.Sound
  files : w'.files = w.files
  loaded : w'.loaded = w.loaded
  config : w'.config = w.config
  listed : file ∈ w'.order

theorem Sound.register {w : Workspace} (h : w.Sound) (path : String) :
    w.Registers (w.register path).2 (w.register path).1 := by
  unfold Workspace.register
  split
  · rename_i file hfile
    exact ⟨h, rfl, rfl, rfl, h.byPath hfile⟩
  · rename_i hnew
    have hfresh : w.nextFile ∉ w.order := fun hmem => Nat.lt_irrefl _ (h.lt_next _ hmem)
    refine ⟨?_, rfl, rfl, rfl, by simp⟩
    exact
      { parsed := h.parsed
        index := h.index
        stamp := h.stamp
        apart := h.apart
        listed := fun hf => List.mem_append_left _ (h.listed hf)
        nodup := List.nodup_append.mpr ⟨h.nodup, by simp, by
          intro a ha b hb
          rw [List.mem_singleton.mp hb]
          rintro rfl
          exact hfresh ha⟩
        lt_next := by
          intro file hfile
          rcases List.mem_append.mp hfile with hfile | hfile
          · exact Nat.lt_succ_of_lt (h.lt_next file hfile)
          · rw [List.mem_singleton.mp hfile]
            exact Nat.lt_succ_self _
        byPath := by
          intro p file hp
          rcases cases_of_insert hp with ⟨-, rfl⟩ | ⟨-, hp⟩
          · simp
          · exact List.mem_append_left _ (h.byPath hp)
        path_unique := by
          intro p p' file hp hp'
          rcases cases_of_insert hp with ⟨rfl, rfl⟩ | ⟨-, hold⟩ <;>
            rcases cases_of_insert hp' with ⟨rfl, heq⟩ | ⟨-, hold'⟩
          · rfl
          · exact absurd (h.byPath hold') hfresh
          · rw [heq] at hold
            exact absurd (h.byPath hold) hfresh
          · exact h.path_unique hold hold' }

theorem Sound.load {w : Workspace} (h : w.Sound) (path text : String) :
    (w.load path text).2.Sound := by
  obtain ⟨hr, hfiles, hloaded, -, hlisted⟩ := h.register path
  unfold Workspace.load
  generalize w.register path = r at hr hfiles hloaded hlisted
  obtain ⟨file, w'⟩ := r
  dsimp only at hr hfiles hloaded hlisted ⊢
  have hloaded_le : w'.loaded ≤ w'.loaded + (parse file w'.loaded text).tree.size :=
    Nat.le_add_right _ _
  exact
    { parsed := by
        intro f source hf
        rcases cases_of_insert hf with ⟨rfl, rfl⟩ | ⟨-, hf⟩
        · exact ⟨w.loaded, text, by rw [← hloaded]⟩
        · exact hr.parsed hf
      index := by
        intro f source hf
        rcases cases_of_insert hf with ⟨rfl, rfl⟩ | ⟨-, hf⟩
        · rfl
        · exact hr.index hf
      stamp := by
        intro f source hf
        rcases cases_of_insert hf with ⟨rfl, rfl⟩ | ⟨-, hf⟩
        · exact Nat.le_refl _
        · exact (hr.stamp hf).trans hloaded_le
      apart := by
        intro f f' source source' hf hf' hne
        rcases cases_of_insert hf with ⟨rfl, rfl⟩ | ⟨-, hold⟩ <;>
          rcases cases_of_insert hf' with ⟨rfl, rfl⟩ | ⟨-, hold'⟩
        · exact absurd rfl hne
        · exact .inr (hr.stamp hold')
        · exact .inl (hr.stamp hold)
        · exact hr.apart hold hold' hne
      listed := by
        intro f source hf
        rcases cases_of_insert hf with ⟨rfl, -⟩ | ⟨-, hf⟩
        · exact hlisted
        · exact hr.listed hf
      nodup := hr.nodup
      lt_next := hr.lt_next
      byPath := hr.byPath
      path_unique := hr.path_unique }

theorem Sound.remove {w w' : Workspace} (h : w.Sound) {path : String}
    (hw : w.remove path = .ok w') : w'.Sound := by
  unfold Workspace.remove at hw
  dsimp only at hw
  split at hw
  · rename_i file hfile
    cases hw
    exact
      { parsed := fun hf => h.parsed (of_erase hf).2
        index := fun hf => h.index (of_erase hf).2
        stamp := fun hf => h.stamp (of_erase hf).2
        apart := fun hf hf' => h.apart (of_erase hf).2 (of_erase hf').2
        listed := fun hf => List.mem_filter.mpr
          ⟨h.listed (of_erase hf).2, bne_iff_ne.mpr (of_erase hf).1⟩
        nodup := h.nodup.filter _
        lt_next := fun f hf => h.lt_next f (List.mem_filter.mp hf).1
        byPath := by
          intro p f hp
          obtain ⟨hne, hold⟩ := of_erase hp
          refine List.mem_filter.mpr ⟨h.byPath hold, bne_iff_ne.mpr ?_⟩
          rintro rfl
          exact hne (h.path_unique hold hfile)
        path_unique := fun hp hp' => h.path_unique (of_erase hp).2 (of_erase hp').2 }
  · cases hw

theorem sound_ofConfig (config : SessionConfig) : (ofConfig config).Sound := by
  have h := (sound_empty config).load Stubs.path Stubs.source
  unfold ofConfig
  dsimp only
  split
  · exact { h with }
  · exact sound_empty config

/-! ### Nodes of the current trees -/

section

variable {w : Workspace} {n m : Node}

/-- A node is known if it belongs to the tree of its file. -/
theorem knows_iff : w.Knows n ↔ w.tree? n.file = some n.tree := Option.map_eq_some_iff.symm

theorem Sound.file_eq (h : w.Sound) {file : FileId} {source : SourceFile}
    (hf : w.files[file]? = some source) : source.tree.file = file := by
  obtain ⟨stamp, text, htree⟩ := h.parsed hf
  rw [htree]
  rfl

theorem Sound.tree (h : w.Sound) (hshort : w.HasShortTexts) {file : FileId}
    {source : SourceFile} (hf : w.files[file]? = some source) : source.tree.Sound := by
  have hsize := hshort hf
  obtain ⟨stamp, text, htree⟩ := h.parsed hf
  rw [htree] at hsize ⊢
  exact sound_parse file stamp (Nat.le_of_lt_succ hsize)

theorem Sound.knows (h : w.Sound) {file : FileId} {source : SourceFile}
    (hf : w.files[file]? = some source) (hn : n.tree = source.tree) : w.Knows n := by
  refine ⟨source, ?_, hn.symm⟩
  rw [Node.file, hn, h.file_eq hf]
  exact hf

theorem Knows.sound_tree (hn : w.Knows n) (h : w.Sound) (hshort : w.HasShortTexts) :
    n.tree.Sound := by
  obtain ⟨source, hf, htree⟩ := hn
  exact htree ▸ h.tree hshort hf

theorem Knows.shaped_tree (hn : w.Knows n) (h : w.Sound) : n.tree.Shaped := by
  obtain ⟨source, hf, htree⟩ := hn
  obtain ⟨stamp, text, hparsed⟩ := h.parsed hf
  rw [← htree, hparsed]
  exact shaped_parse n.file stamp text

theorem Knows.of_tree_eq (hn : w.Knows n) (hm : m.tree = n.tree) : w.Knows m := by
  obtain ⟨source, hf, htree⟩ := hn
  exact ⟨source, by rwa [Node.file, hm], htree.trans hm.symm⟩

/-- Nodes of the current trees are told apart by their keys. -/
theorem Knows.eq_of_key (hn : w.Knows n) (hm : w.Knows m) (hkey : n.key = m.key) : n = m := by
  obtain ⟨source, hf, htree⟩ := hn
  obtain ⟨source', hf', htree'⟩ := hm
  obtain ⟨hfile, hid⟩ := NodeKey.mk.inj hkey
  have hfile : n.file = m.file := hfile
  rw [hfile, hf'] at hf
  cases hf
  exact Node.eq_of_id_eq (htree.symm.trans htree') hid

theorem Knows.code_lt (hn : w.Knows n) (h : w.Sound) : n.code < w.loaded := by
  obtain ⟨source, hf, htree⟩ := hn
  have hstamp := h.stamp hf
  rw [htree] at hstamp
  exact Nat.lt_of_lt_of_le (Nat.add_lt_add_left n.id_lt _) hstamp

/-- Nodes of the current trees are told apart by their numbers. -/
theorem Knows.eq_of_code (hn : w.Knows n) (hm : w.Knows m) (h : w.Sound)
    (hcode : n.code = m.code) : n = m := by
  obtain ⟨source, hf, htree⟩ := hn
  obtain ⟨source', hf', htree'⟩ := hm
  have hn_lt : n.code < n.tree.stamp + n.tree.size := Nat.add_lt_add_left n.id_lt _
  have hm_lt : m.code < m.tree.stamp + m.tree.size := Nat.add_lt_add_left m.id_lt _
  have hn_ge : n.tree.stamp ≤ n.code := Nat.le_add_right _ _
  have hm_ge : m.tree.stamp ≤ m.code := Nat.le_add_right _ _
  by_cases hfile : n.file = m.file
  · rw [hfile, hf'] at hf
    cases hf
    have htrees : n.tree = m.tree := htree.symm.trans htree'
    refine Node.eq_of_id_eq htrees ?_
    unfold Node.code at hcode
    rw [htrees] at hcode
    exact Nat.add_left_cancel hcode
  · have hapart := h.apart hf hf' hfile
    rw [htree, htree'] at hapart
    unfold Tree.Before at hapart
    omega

/-- Nodes of the current trees are equal if they stand at one position of trees with
one stamp. -/
theorem Knows.eq_of_beq (hn : w.Knows n) (hm : w.Knows m) (h : w.Sound)
    (heq : (n == m) = true) : n = m := by
  obtain ⟨hid, hstamp⟩ := Bool.and_eq_true_iff.mp heq
  refine hn.eq_of_code hm h ?_
  rw [Node.code, Node.code, beq_iff_eq.mp hid, beq_iff_eq.mp hstamp]

/-! ### Closed families -/

theorem exists_source_of_tree? {file : FileId} {t : Tree} (h : w.tree? file = some t) :
    ∃ source, w.files[file]? = some source ∧ source.tree = t :=
  Option.map_eq_some_iff.mp h

theorem Sound.stamp_add_size_le (h : w.Sound) {file : FileId} {t : Tree}
    (ht : w.tree? file = some t) : t.stamp + t.size ≤ w.loaded := by
  obtain ⟨source, hf, rfl⟩ := exists_source_of_tree? ht
  exact h.stamp hf

theorem exists_source_of_index? {file : FileId} {index : FileIndex}
    (h : w.index? file = some index) :
    ∃ source, w.files[file]? = some source ∧ source.index = index :=
  Option.map_eq_some_iff.mp h

/-- A declaration at the top of a file stands below the root of the file's tree. -/
theorem Sound.mem_children_of_element (h : w.Sound) {file : FileId} {index : FileIndex}
    {category : Category} {d : Decl} (hindex : w.index? file = some index)
    (hd : d ∈ index.elements category) :
    ∃ source, w.files[file]? = some source ∧ d.node ∈ source.tree.rootNode.children ∧
      Decl.ofNode? d.node = some d ∧ Category.ofKind? d.node.kind = some category := by
  obtain ⟨source, hf, rfl⟩ := exists_source_of_index? hindex
  rw [h.index hf] at hd
  exact ⟨source, hf, FileIndex.exists_of_mem_elements hd⟩

theorem Sound.element_of_named (h : w.Sound) {file : FileId} {index : FileIndex}
    {category : Category} {name : String} {d : Decl} (hindex : w.index? file = some index)
    (hd : d ∈ index.byName category name) : d ∈ index.elements category := by
  obtain ⟨source, hf, rfl⟩ := exists_source_of_index? hindex
  rw [h.index hf] at hd ⊢
  exact (FileIndex.mem_elements_of_mem_byName hd).1

theorem Sound.closed_knows (h : w.Sound) : w.Closed w.Knows where
  child hn hc := hn.of_tree_eq (Node.tree_of_mem_children hc)
  parent hn hp := hn.of_tree_eq (Node.id_lt_of_parent? hp).2
  element hindex hd := by
    obtain ⟨source, hf, hmem, -⟩ := h.mem_children_of_element hindex hd
    exact h.knows hf (Node.tree_of_mem_children hmem)
  named hindex hd := by
    obtain ⟨source, hf, hmem, -⟩ := h.mem_children_of_element hindex (h.element_of_named hindex hd)
    exact h.knows hf (Node.tree_of_mem_children hmem)
  root htree := by
    obtain ⟨source, hf, rfl⟩ := exists_source_of_tree? htree
    exact h.knows hf rfl

theorem reaches_of_mem_children {file : FileId} {source : SourceFile} (h : w.Sound)
    (hf : w.files[file]? = some source) (hn : n ∈ source.tree.rootNode.children) :
    w.Reaches n := by
  have htree : n.tree = source.tree := Node.tree_of_mem_children hn
  refine ⟨h.knows hf htree, ?_⟩
  rw [htree]
  exact Node.mem_preorder_of_mem_children (Node.mem_preorder_self _) hn

theorem Sound.closed_reaches (h : w.Sound) : w.Closed w.Reaches where
  child hn hc := by
    have htree := Node.tree_of_mem_children hc
    exact ⟨hn.1.of_tree_eq htree, by rw [htree]; exact Node.mem_preorder_of_mem_children hn.2 hc⟩
  parent := by
    intro n p hn hp
    have htree := (Node.id_lt_of_parent? hp).2
    have hmem : p ∈ n.ancestors := Node.ancestors_of_parent? hp ▸ List.mem_cons_self
    refine ⟨hn.1.of_tree_eq htree, ?_⟩
    rw [htree]
    exact ((hn.1.shaped_tree h).mem_preorder_of_mem_ancestors hn.2 hmem).1
  element hindex hd := by
    obtain ⟨source, hf, hmem, -⟩ := h.mem_children_of_element hindex hd
    exact reaches_of_mem_children h hf hmem
  named hindex hd := by
    obtain ⟨source, hf, hmem, -⟩ := h.mem_children_of_element hindex (h.element_of_named hindex hd)
    exact reaches_of_mem_children h hf hmem
  root htree := by
    obtain ⟨source, hf, rfl⟩ := exists_source_of_tree? htree
    exact ⟨h.knows hf rfl, Node.mem_preorder_self _⟩

end

end Workspace

end TolkAnalysis
