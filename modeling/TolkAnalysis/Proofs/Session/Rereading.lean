import TolkAnalysis.Proofs.Session.Reachable
import TolkAnalysis.Proofs.Tree.Place

/-!
# Reading files

What a workspace holds after a text has been read as the content of a path, and what the memo
tables of a session may hold then.

`Session.rereading` is a session in which one file has been read twice. A node of the first
tree may still be asked about; `Session.resolve_of_stale` says that the answer is then given
for the node with the same number in the second tree.
-/

namespace TolkAnalysis

namespace Workspace

variable {w : Workspace}

theorem register_files (w : Workspace) (path : String) :
    (w.register path).2.files = w.files ∧ (w.register path).2.loaded = w.loaded := by
  unfold register
  split <;> exact ⟨rfl, rfl⟩

/-- A path has the number under which it is registered. -/
theorem register_byPath (w : Workspace) (path : String) :
    (w.register path).2.byPath[path]? = some (w.register path).1 := by
  unfold register
  split
  · assumption
  · exact Std.HashMap.getElem?_insert_self

/-- A path that has been read keeps its number. -/
theorem load_again (w : Workspace) (path text text' : String) :
    ((w.load path text).2.load path text').1 = (w.load path text).1 := by
  have h : (w.load path text).2.byPath[path]? = some (w.load path text).1 :=
    w.register_byPath path
  change ((w.load path text).2.register path).1 = _
  rw [register, h]

/-- A text that has been read is the content of its path. -/
theorem tree?_load (w : Workspace) (path text : String) :
    (w.load path text).2.tree? (w.load path text).1 =
      some (parse (w.load path text).1 w.loaded text).tree := by
  have hloaded := (w.register_files path).2
  unfold tree? load
  simp only [Std.HashMap.getElem?_insert_self, Option.map_some, hloaded]

theorem loaded_load (w : Workspace) (path text : String) :
    (w.load path text).2.loaded =
      w.loaded + (parse (w.load path text).1 w.loaded text).tree.size := by
  have hloaded := (w.register_files path).2
  unfold load
  simp only [hloaded]

theorem load_config (w : Workspace) (path text : String) :
    (w.load path text).2.config = w.config := by
  have h : (w.register path).2.config = w.config := by
    unfold register
    split <;> rfl
  exact h

theorem HasShortTexts.load (h : w.HasShortTexts) (path : String) {text : String}
    (htext : text.utf8ByteSize < 2 ^ 32) : (w.load path text).2.HasShortTexts := by
  have hfiles := (w.register_files path).1
  intro file source hf
  unfold Workspace.load at hf
  dsimp only at hf
  rw [Std.HashMap.getElem?_insert, hfiles] at hf
  by_cases hfile : ((w.register path).1 == file) = true
  · rw [if_pos hfile] at hf
    cases hf
    exact htext
  · rw [if_neg hfile] at hf
    exact h hf

theorem hasShortTexts_empty (config : SessionConfig) : (empty config).HasShortTexts := by
  intro file source hf
  simp [empty] at hf

/-- A question that the rules answer at once is given that answer, unless another one has been
remembered for it. -/
theorem resolve_of_first {n : Node} {c : Caches} {d : Option Decl} (h : c.Idle)
    (hnew : c.resolve.values[n.key]? = none) (hfirst : Resolution.first w n = pure d) :
    (w.oracle.resolve n c).1 = d := by
  rw [oracle_eq, oracleWithin_succ_resolve, QueryCache.getOrCompute_of_new
    (QueryCache.find?_eq_none_iff.mpr ⟨hnew, h.resolve n.key⟩), hfirst]
  rfl

end Workspace

namespace Session

/-- The session without builtin types in which two texts have been read, one after the other, as
the content of the same file. -/
def rereading (old new : String) : Session :=
  ((((ofConfig { loadStubs := false }).replace "/main.tolk" old).2).replace "/main.tolk" new).2

variable (old new : String)

theorem reachable_rereading : (rereading old new).Reachable :=
  .replace (.replace (.start _) _ _) _ _

theorem blank_rereading : (rereading old new).Blank := ⟨rfl, rfl⟩

theorem rereading_config : (rereading old new).workspace.config = { loadStubs := false } :=
  (Workspace.load_config ..).trans (Workspace.load_config ..)

theorem tree?_rereading : (rereading old new).workspace.tree? 0 =
    some (parse 0 (parse 0 0 old).tree.size new).tree := by
  let path := Path.normalize "/main.tolk"
  let w := (Workspace.empty { loadStubs := false }).load path old
  have hfile : w.1 = 0 := by simp [w, Workspace.load, Workspace.register, Workspace.empty]
  have hloaded : (Workspace.empty { loadStubs := false }).loaded = 0 := rfl
  have h := w.2.tree?_load path new
  rw [Workspace.load_again, hfile, Workspace.loaded_load, hfile, hloaded, Nat.zero_add] at h
  exact h

/-- No other tree is held. -/
theorem tree_eq_of_rereading {file : FileId} {t : Tree}
    (ht : (rereading old new).workspace.tree? file = some t) :
    t = (parse 0 (parse 0 0 old).tree.size new).tree := by
  let path := Path.normalize "/main.tolk"
  let w := (Workspace.empty { loadStubs := false }).load path old
  have horder : w.2.order = [0] := by simp [w, Workspace.load, Workspace.register, Workspace.empty]
  have hbyPath : w.2.byPath[path]? = some w.1 :=
    (Workspace.empty { loadStubs := false }).register_byPath path
  have hregister : (w.2.register path).2.order = [0] := by
    rw [Workspace.register, hbyPath]
    exact horder
  obtain ⟨source, hf, -⟩ := Workspace.exists_source_of_tree? ht
  have hlisted : file ∈ (w.2.register path).2.order :=
    (reachable_rereading old new).sound.listed hf
  rw [hregister] at hlisted
  rw [List.mem_singleton.mp hlisted, tree?_rereading] at ht
  exact (Option.some_inj.mp ht).symm

/-- The nodes of the second tree are reached. -/
theorem reaches_rereading {stamp : Nat} (hstamp : (parse 0 0 old).tree.size = stamp) {n : Node}
    (htree : n.tree = (parse 0 stamp new).tree)
    (hn : n.tree.rootNode.preorder.any (· == n) = true) :
    (rereading old new).workspace.Reaches n := by
  subst hstamp
  refine ⟨Workspace.knows_iff.mpr ?_, Node.mem_preorder_of_any hn⟩
  rw [Node.file, htree]
  exact tree?_rereading old new

theorem hasShortTexts_rereading (hold : old.utf8ByteSize < 2 ^ 32)
    (hnew : new.utf8ByteSize < 2 ^ 32) : (rereading old new).workspace.HasShortTexts :=
  Workspace.HasShortTexts.load (Workspace.HasShortTexts.load (Workspace.hasShortTexts_empty _) _ hold)
    _ hnew

/-- The constant of a text, whose annotation is spelled otherwise. -/
def annotatedConstant : Decl := ⟨.constant, (parse 0 4 "@x const a=1;").tree, 5, by decide +kernel⟩

theorem reaches_annotatedConstant :
    (rereading "const a=1;" "@x const a=1;").workspace.Reaches annotatedConstant.node :=
  reaches_rereading _ _ (by decide +kernel) rfl (by decide +kernel)

/-- After a question about a node, another node with its number gets the same answer. -/
theorem resolve_of_stale {s : Session} (h : s.Reachable) {x n : Node} (hkey : n.key = x.key)
    (requests : List Request) :
    (resolve n ((resolve x s).2.after requests)).1 = (resolve x s).1 := by
  have hx := s.workspace.resolve_remembered (n := x) h.idle
  have hworkspace : ((resolve x s).2.after requests).workspace = s.workspace :=
    after_workspace ..
  have hvalue := ((resolve x s).2.grows_after requests).resolve.values hx
  rw [← hkey] at hvalue
  change ((((resolve x s).2.after requests).workspace.oracle.resolve n _).1 = _)
  rw [hworkspace, Workspace.resolve_of_values _ hvalue]
  rfl

end Session

end TolkAnalysis
